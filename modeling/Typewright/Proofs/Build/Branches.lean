import Typewright.Proofs.Graph.Targets
import Typewright.Proofs.Build.Finished

/-!
# The branches of a `type` list

A schema with a list of types becomes a union with one branch for each entry, and the branch is read
as the schema with the single type in place of the list. It stands for a basic type if nothing else
in the schema comes before the type (`branches_of_typeList`). A description of items does, except
for the type `null`, so a list of a basic type and arrays loses the basic type
(`exists_branch_lost`).
-/

namespace Typewright

namespace Build

variable {ctx : BuildContext} {s : Builder} {requests : List Request} {id : Fragment}
  {ms : Members} {types : List Json} {kind : Kind} {name : String} {i j : Nat}

/-! ## Types by name -/

/-- The kind that the name of a basic type stands for. -/
def basicKind? : String → Option Kind
  | "string" => some .string
  | "number" => some .number
  | "integer" => some .number
  | "boolean" => some .boolean
  | "null" => some .null
  | _ => none

/-- The keywords that stand before the type or say which values there are. -/
def deciding : List String := ["tsType", "allOf", "anyOf", "oneOf", "enum", "const"]

/-- An object schema with a list of types, which is not decided by another keyword. -/
structure ListsTypes (ms : Members) (types : List Json) : Prop where
  types : ms.lookup "type" = some (.array types)
  undecided : ∀ keyword ∈ deciding, ms.lookup keyword = none

/-- An object schema describes items, in a schema for all of them or in a list. -/
def DescribesItems (ms : Members) : Prop :=
  ∃ value, ms.lookup "items" = some value ∧ (value.isSchema = true ∨ ∃ items, value = .array items)

/-- Under a type the form is that of the keywords from the type on. -/
theorem ListsTypes.form_eq (h : ListsTypes ms types) (u : Bool) (variant : Option Nat) :
    Schema.form u variant (.object ms) = Schema.typeForm u ms (Schema.entryType ms variant) := by
  have htsType := h.undecided "tsType" (by decide)
  have hallOf := h.undecided "allOf" (by decide)
  have hanyOf := h.undecided "anyOf" (by decide)
  have honeOf := h.undecided "oneOf" (by decide)
  simp only [Schema.form, Schema.objectForm, Schema.choiceForm, htsType, hallOf, hanyOf, honeOf]

theorem ListsTypes.form_branches (h : ListsTypes ms types) (u : Bool) :
    Schema.form u none (.object ms) = .branches types.length := by
  rw [h.form_eq, Schema.entryType, h.types]
  rfl

theorem ListsTypes.entryType (h : ListsTypes ms types) (j : Nat) :
    Schema.entryType ms (some j) = types[j]? := by
  rw [Schema.entryType, Schema.typeList, Json.member?, Json.members?, Option.bind_some, h.types]
  rfl

theorem typeForm_of_ne {u : Bool} (h : name ≠ "null") :
    Schema.typeForm u ms (some (.string name)) = Schema.itemsForm u ms (some name) := by
  unfold Schema.typeForm
  split
  · rename_i heq
    cases heq
  · rename_i heq
    exact absurd (Json.string.inj (Option.some.inj heq)) h
  · rfl

/-- Where items are described, they decide on the form. -/
theorem itemsForm_of_describesItems (h : DescribesItems ms) (u : Bool) (type : Option String) :
    (∃ items, Schema.itemsForm u ms type = .tuple items) ∨
      ∃ item, Schema.itemsForm u ms type = .listOf item := by
  obtain ⟨value, hl, hv⟩ := h
  unfold Schema.itemsForm
  rw [hl]
  cases value with
  | array items => exact .inl ⟨items, rfl⟩
  | object item => exact .inr ⟨.object item, rfl⟩
  | bool b => exact .inr ⟨.bool b, rfl⟩
  | _ => rcases hv with hv | ⟨_, hv⟩ <;> cases hv

theorem itemsForm_of_not_describesItems (h : ¬ DescribesItems ms) (u : Bool)
    (type : Option String) : Schema.itemsForm u ms type = Schema.valueForm u ms type := by
  unfold Schema.itemsForm
  split
  · rename_i items hl
    exact absurd ⟨_, hl, .inr ⟨items, rfl⟩⟩ h
  · rename_i item hl
    exact absurd ⟨_, hl, .inl rfl⟩ h
  · rename_i b hl
    exact absurd ⟨_, hl, .inl rfl⟩ h
  · rfl

/-- A basic type is read as itself, unless it is another than `null` and items are described. -/
theorem ListsTypes.describes_iff (h : ListsTypes ms types) (hj : types[j]? = some (.string name))
    (hkind : basicKind? name = some kind) {k : Kind}
    (hd : Describes ctx s { id with variant := some j } (.object ms) k) :
    k = kind ↔ name = "null" ∨ ¬ DescribesItems ms := by
  unfold Describes at hd
  rw [h.form_eq, h.entryType, hj] at hd
  by_cases hnull : name = "null"
  · subst hnull
    obtain rfl := Option.some.inj hkind
    exact ⟨fun _ => .inl rfl, fun _ => hd⟩
  · rw [typeForm_of_ne hnull] at hd
    by_cases hitems : DescribesItems ms
    · refine ⟨fun heq => ?_, fun hor => (hor.elim hnull fun hnot => hnot hitems).elim⟩
      -- a tuple or an array is the kind of no basic type
      subst heq
      rcases itemsForm_of_describesItems hitems ctx.options.unreachableDefinitions (some name) with
        ⟨items, hform⟩ | ⟨item, hform⟩
      all_goals
        rw [hform] at hd
        obtain ⟨_, rfl, -⟩ := hd
        unfold basicKind? at hkind
        split at hkind <;> cases hkind
    · refine ⟨fun _ => .inr hitems, fun _ => ?_⟩
      have henum := h.undecided "enum" (by decide)
      have hconst := h.undecided "const" (by decide)
      rw [itemsForm_of_not_describesItems hitems, Schema.valueForm, henum, hconst] at hd
      unfold basicKind? at hkind
      split at hkind
      case h_5 => exact absurd rfl hnull
      case h_6 => cases hkind
      all_goals
        obtain rfl := Option.some.inj hkind
        exact hd

/-! ## Branches -/

/-- A slot of a series of requests is built, or one of them left it open. -/
theorem built_or_leftOpen (ctx : BuildContext) (reserved : List String) (requests : List Request)
    {n : NodeId} (hn : n < (serve ctx { usedNames := reserved } requests).graph.size) :
    LeftOpen ctx { usedNames := reserved } requests n ∨
      ∃ node, (serve ctx { usedNames := reserved } requests).graph.get? n = some node := by
  have hempty := consistent_empty ctx (fun _ => True) reserved
  obtain ⟨hc, -⟩ := keeps_serve hempty fun r (_ : r ∈ requests) => trivial
  cases hnode : (serve ctx { usedNames := reserved } requests).graph.get? n with
  | some node => exact .inr ⟨node, rfl⟩
  | none =>
      refine .inl ((mem_inProgress_serve hempty (fun _ _ => trivial)
        ((hc.pending n).2 ⟨hn, hnode⟩)).resolve_left fun hmem => ?_)
      cases hmem

/-- What stands for an entry of a `type` list is the fragment of the entry itself. -/
theorem finds_variant (hrefs : ∀ e ∈ ctx.schemas.refs, e.1.variant = none) (id : Fragment)
    {c : NodeId} (h : Finds ctx s { id with variant := some j } c) :
    s.processed.lookup { id with variant := some j } = some c := by
  have hnone : ctx.schemas.refs.lookup { id with variant := some j } = none := by
    refine List.lookup_eq_none_iff.2 fun e he => bne_iff_ne.2 fun heq => ?_
    have hvariant := hrefs e he
    rw [← heq] at hvariant
    cases hvariant
  unfold Finds at h
  rw [SchemaGraph.resolve_of_lookup_eq_none hnone] at h
  exact h

/-- Each branch of a list of types stands for its own type, unless items are described: whatever
requests a builder serves, the node of such a schema is a union with one branch for each type, in
order, and the branch of a basic type has the kind of this type exactly if this is `null` or the
schema describes no items. Slots that a failed request left open are not built. -/
theorem branches_of_typeList {env : Environment} {options : Options} {location : Option FileUrl}
    {schema : Json} {g : SchemaGraph} (h : SchemaGraph.load env options location schema = .ok g)
    (hd : schema.Distinct) (ctx : BuildContext)
    (hs : ctx.schemas = g ∨ ∃ name, ctx.schemas = g.normalize name) (reserved : List String)
    (requests : List Request) (hv : id.variant = none)
    (hget : ctx.schemas.get? id = some (.object ms)) (ht : ListsTypes ms types)
    (hl : (serve ctx { usedNames := reserved } requests).processed.lookup id = some i) :
    LeftOpen ctx { usedNames := reserved } requests i ∨
    ∃ node cs, (serve ctx { usedNames := reserved } requests).graph.get? i = some node ∧
      node.kind = .union cs ∧ cs.length = types.length ∧ ∀ j c, cs[j]? = some c →
        (serve ctx { usedNames := reserved } requests).processed.lookup
          { id with variant := some j } = some c ∧
        ∀ name kind, types[j]? = some (.string name) → basicKind? name = some kind →
          LeftOpen ctx { usedNames := reserved } requests c ∨
          ∃ branch, (serve ctx { usedNames := reserved } requests).graph.get? c = some branch ∧
            (branch.kind = kind ↔ name = "null" ∨ ¬ DescribesItems ms) := by
  have hdistinct := SchemaGraph.distinct_of_load_or_normalize h hd hs
  have hrefs : ∀ e ∈ ctx.schemas.refs, e.1.variant = none := by
    have hg : ∀ e ∈ g.refs, e.1.variant = none := fun e he => by
      obtain ⟨_, _, _, -, -, hsite, -⟩ := SchemaGraph.accurate_of_load h e he
      rw [hsite]
    rcases hs with heq | ⟨name, heq⟩
    · exact heq ▸ hg
    · exact heq ▸ SchemaGraph.refs_normalize g name ▸ hg
  obtain ⟨hc, -⟩ := keeps_serve (consistent_empty ctx (fun _ => True) reserved)
    fun r (_ : r ∈ requests) => trivial
  -- the schema that a recorded fragment was built from is its value, with or without a variant
  have hdescribes : ∀ variant c, (serve ctx { usedNames := reserved } requests).processed.lookup
      { id with variant } = some c →
      c < (serve ctx { usedNames := reserved } requests).graph.size ∧
      ∀ node, (serve ctx { usedNames := reserved } requests).graph.get? c = some node →
        Describes ctx (serve ctx { usedNames := reserved } requests) { id with variant }
          (.object ms) node.kind := by
    intro variant c hlookup
    obtain ⟨hlt, -, v, hoccurs, hnode⟩ := hc.processed _ c hlookup
    obtain rfl := Option.some.inj ((hoccurs.get? hdistinct).symm.trans hget)
    exact ⟨hlt, hnode⟩
  obtain ⟨document, pointer, variant⟩ := id
  obtain rfl : variant = none := hv
  obtain ⟨hlt, hunion⟩ := hdescribes none i hl
  refine (built_or_leftOpen ctx reserved requests hlt).imp_right ?_
  rintro ⟨node, hnode⟩
  have hbranches := hunion node hnode
  unfold Describes at hbranches
  rw [ht.form_branches] at hbranches
  obtain ⟨cs, hkind, hfinds⟩ := hbranches
  have hlength : cs.length = types.length := by
    rw [← hfinds.length_eq, List.length_map, List.length_range]
  refine ⟨node, cs, hnode, hkind, hlength, fun j c hj => ?_⟩
  have hbranch : (serve ctx { usedNames := reserved } requests).processed.lookup
      ⟨document, pointer, some j⟩ = some c := by
    obtain ⟨hjlt, rfl⟩ := List.getElem?_eq_some_iff.1 hj
    have hfound := List.Forall₂.get hfinds (by simpa [hlength] using hjlt) hjlt
    simp only [List.get_eq_getElem, List.getElem_map, List.getElem_range] at hfound
    exact finds_variant hrefs ⟨document, pointer, none⟩ hfound
  refine ⟨hbranch, fun name kind htype hbasic => ?_⟩
  obtain ⟨hlt, hdescribed⟩ := hdescribes (some j) c hbranch
  refine (built_or_leftOpen ctx reserved requests hlt).imp_right ?_
  rintro ⟨branch, hbuilt⟩
  exact ⟨branch, hbuilt, ht.describes_iff htype hbasic (hdescribed branch hbuilt)⟩

/-! ## A lost branch -/

/-- A schema of strings, nothing and lists of numbers. -/
def mixedTypes : Json :=
  .object [("type", .array [.string "string", .string "null", .string "array"]),
    ("items", .object [("type", .string "number")])]

/-- The members of the schema in normal form. -/
def mixedMembers : Members :=
  [("type", .array [.string "string", .string "null", .string "array"]),
    ("items", .object [("type", .string "number")]), ("required", .array []),
    ("title", .string "List")]

def mixedGraph (root : Json) : SchemaGraph := ⟨[⟨none, root⟩], [], 50⟩

def mixedContext : BuildContext where
  schemas := mixedGraph (.object mixedMembers)
  rootName := "List"
  options := {}

/-- The entry of the list of types at an index. -/
def mixedEntry (j : Nat) : Fragment := ⟨0, "#", some j⟩

theorem distinct_mixedTypes : mixedTypes.Distinct := by
  have hitems : (Json.object [("type", .string "number")]).Distinct :=
    ⟨List.nodup_singleton _, trivial, trivial⟩
  exact ⟨(by decide : ["type", "items"].Nodup), ⟨trivial, trivial, trivial, trivial⟩, hitems,
    trivial⟩

theorem load_mixedTypes :
    SchemaGraph.load noFiles {} none mixedTypes = .ok (mixedGraph mixedTypes) := by
  cbv

theorem normalize_mixedTypes : (mixedGraph mixedTypes).normalize "List" = mixedContext.schemas := by
  cbv

theorem listsTypes_mixedMembers :
    ListsTypes mixedMembers [.string "string", .string "null", .string "array"] :=
  ⟨by rfl, by decide⟩

section

variable {done : NodeId → Builder → Prop} {failed : CompileError → Builder → Prop}

theorem ends_of_run {α : Type} {x : Build α} {a : α} {t : Builder} {done : α → Builder → Prop}
    (h : x.run s = (.ok a, t)) : Ends x s done failed ↔ done a t := by
  unfold Ends
  rw [h]

theorem ends_visitBranches_cons {path : List Fragment} {schema : Json} {key : Option String}
    {rest : List Nat} {done : List NodeId → Builder → Prop} :
    Ends (visitBranches ctx path id schema key (j :: rest)) s done failed ↔
      Ends (visit ctx path { id with variant := some j } schema key false) s
        (fun node t => Ends (visitBranches ctx path id schema key rest) t
          (fun nodes u => done (node :: nodes) u) failed) failed := by
  rw [visitBranches]
  simp only [ends_bind, ends_pure]

/-- A finished node that none of its parts leads back to gets no name. -/
theorem ends_finishName_of_not_mem {node : NodeId} {key : Option String} (h : node ∉ s.needsName)
    {done : Option String → Builder → Prop} :
    Ends (finishName node none key) s done failed ↔
      done none { s with inProgress := s.inProgress.filter (· != node) } := by
  simp only [finishName, ends_bind, ends_modify, ends_get, if_neg h, ends_pure]

/-- The visit of an entry comes down to the parts that its own type stands for. -/
theorem ends_visit_mixedEntry {j : Nat} (hj : j < 3)
    (hl : s.processed.lookup (mixedEntry j) = none) :
    Ends (visit mixedContext [.root] (mixedEntry j) (.object mixedMembers) none false) s done
      failed ↔
    Ends (partsOf mixedContext [mixedEntry j, .root] (mixedEntry j) (.object mixedMembers) none none
        (Schema.form false (some j) (.object mixedMembers)))
      { s with
        graph := s.graph.reserve.2
        processed := (mixedEntry j, s.graph.size) :: s.processed
        inProgress := s.graph.size :: s.inProgress }
      (fun kind t => Ends (finishName s.graph.size none none) t
        (fun name t => done s.graph.size { t with
          graph := t.graph.fill s.graph.size { kind, name } }) failed) failed := by
  have hhint : nameHint mixedContext (mixedEntry j) (.object mixedMembers) none false = none := by
    rfl
  have hvariants : Schema.variants (.object mixedMembers) = [none, some 0, some 1, some 2] := by rfl
  have hmem : (mixedEntry j).variant ∈ Schema.variants (.object mixedMembers) := by
    rw [hvariants]
    simp [mixedEntry]
    omega
  rw [ends_visit_new (by rfl) hl (by simp [mixedEntry, Fragment.root]),
    ends_build_unnamed hhint hmem, parts_eq]
  rfl

end

/-- A builder that is at the branches of the schema. -/
def mixedBuilder (nodes : Array (Option Node)) (processed : List (Fragment × NodeId)) :
    Builder where
  graph := ⟨nodes, 0⟩
  processed
  usedNames := ["List"]
  inProgress := [0]

/-- The branch of strings is read as that of lists. -/
theorem run_mixedEntry_zero :
    (visit mixedContext [.root] (mixedEntry 0) (.object mixedMembers) none false).run
      (mixedBuilder #[none] [(.root, 0)]) = (.ok 1, mixedBuilder
        #[none, some { kind := .array 2 }, some { kind := .number }]
        [(below .root ["items"], 2), (mixedEntry 0, 1), (.root, 0)]) := by
  have hform : Schema.form false (some 0) (.object mixedMembers) =
      .listOf (.object [("type", .string "number")]) := by rfl
  have hitems : mixedContext.schemas.resolve (below (mixedEntry 0) ["items"]) =
      .ok (.fragment (below (mixedEntry 0) ["items"])) := by rfl
  have hnumber : Schema.form mixedContext.options.unreachableDefinitions
      (below (mixedEntry 0) ["items"]).variant (.object [("type", .string "number")]) = .number :=
    by rfl
  have hhint : nameHint mixedContext (below (mixedEntry 0) ["items"])
      (.object [("type", .string "number")]) none false = none := by rfl
  refine run_of_ends ?_
  rw [ends_visit_mixedEntry (by decide) rfl, hform, partsOf, ends_bind,
    ends_visit_new hitems rfl (by decide), ends_build_unnamed hhint (mem_variants rfl _), parts_eq,
    hnumber, partsOf, ends_pure, ends_finishName_of_not_mem List.not_mem_nil, ends_pure,
    ends_finishName_of_not_mem List.not_mem_nil]
  exact ⟨rfl, rfl⟩

theorem run_mixedEntry_one :
    (visit mixedContext [.root] (mixedEntry 1) (.object mixedMembers) none false).run
      (mixedBuilder #[none, some { kind := .array 2 }, some { kind := .number }]
        [(below .root ["items"], 2), (mixedEntry 0, 1), (.root, 0)]) = (.ok 3, mixedBuilder
        #[none, some { kind := .array 2 }, some { kind := .number }, some { kind := .null }]
        [(mixedEntry 1, 3), (below .root ["items"], 2), (mixedEntry 0, 1), (.root, 0)]) := by
  have hform : Schema.form false (some 1) (.object mixedMembers) = .null := by rfl
  refine run_of_ends ?_
  rw [ends_visit_mixedEntry (by decide) rfl, hform, partsOf, ends_pure,
    ends_finishName_of_not_mem List.not_mem_nil]
  exact ⟨rfl, rfl⟩

/-- The branch of lists finds the node of their items. -/
theorem run_mixedEntry_two :
    (visit mixedContext [.root] (mixedEntry 2) (.object mixedMembers) none false).run
      (mixedBuilder
        #[none, some { kind := .array 2 }, some { kind := .number }, some { kind := .null }]
        [(mixedEntry 1, 3), (below .root ["items"], 2), (mixedEntry 0, 1), (.root, 0)]) =
      (.ok 4, mixedBuilder #[none, some { kind := .array 2 }, some { kind := .number },
          some { kind := .null }, some { kind := .array 2 }]
        [(mixedEntry 2, 4), (mixedEntry 1, 3), (below .root ["items"], 2), (mixedEntry 0, 1),
          (.root, 0)]) := by
  have hform : Schema.form false (some 2) (.object mixedMembers) =
      .listOf (.object [("type", .string "number")]) := by rfl
  have hitems : mixedContext.schemas.resolve (below (mixedEntry 2) ["items"]) =
      .ok (.fragment (below (mixedEntry 2) ["items"])) := by rfl
  refine run_of_ends ?_
  rw [ends_visit_mixedEntry (by decide) rfl, hform, partsOf, ends_bind, ends_visit_seen hitems rfl,
    if_neg (by decide), ends_pure, ends_finishName_of_not_mem List.not_mem_nil]
  exact ⟨rfl, rfl⟩

/-- The first branch stands for lists of numbers, as the last does. -/
theorem run_mixedContext :
    (fragment mixedContext .root none true).run {} = (.ok 0, {
      graph := ⟨#[some { kind := .union [1, 3, 4], name := some "List" }, some { kind := .array 2 },
        some { kind := .number }, some { kind := .null }, some { kind := .array 2 }], 0⟩
      processed := [(mixedEntry 2, 4), (mixedEntry 1, 3), (below .root ["items"], 2),
        (mixedEntry 0, 1), (.root, 0)]
      usedNames := ["List"] }) := by
  have hroot : mixedContext.schemas.resolve .root = .ok (.fragment .root) := by rfl
  have hform : Schema.form mixedContext.options.unreachableDefinitions (Fragment.root).variant
      (.object mixedMembers) = .branches 3 := by rfl
  have hhint : nameHint mixedContext .root (.object mixedMembers) none true = some "List" := by rfl
  refine run_of_ends ((ends_fragment (by rfl)).2 ?_)
  rw [ends_visit_new hroot rfl List.not_mem_nil, ends_build_named hhint rfl, parts_eq, hform,
    partsOf, show List.range 3 = [0, 1, 2] by rfl, ends_bind]
  refine ends_visitBranches_cons.2 ((ends_of_run run_mixedEntry_zero).2 ?_)
  refine ends_visitBranches_cons.2 ((ends_of_run run_mixedEntry_one).2 ?_)
  refine ends_visitBranches_cons.2 ((ends_of_run run_mixedEntry_two).2 ?_)
  rw [visitBranches]
  exact ⟨rfl, rfl⟩

/-- The branch of the type `null` stands for this type, whatever the items are. -/
theorem branches_of_typeList_mixedTypes :
    SchemaGraph.load noFiles {} none mixedTypes = .ok (mixedGraph mixedTypes) ∧
    ∃ node cs, (serve mixedContext {} [.root]).graph.get? 0 = some node ∧ node.kind = .union cs ∧
      cs.length = 3 ∧ ∀ c, cs[1]? = some c → ∃ branch,
        (serve mixedContext {} [.root]).graph.get? c = some branch ∧ branch.kind = .null := by
  have hserve : serve mixedContext {} [.root] =
      ((fragment mixedContext .root none true).run {}).2 := rfl
  rw [run_mixedContext] at hserve
  have hl : (serve mixedContext {} [.root]).processed.lookup .root = some 0 := by
    rw [hserve]
    rfl
  -- no request failed, so no slot is open
  have hclosed : ∀ n node, (serve mixedContext {} [.root]).graph.get? n = some node →
      ¬ LeftOpen mixedContext {} [.root] n := fun n node hn hopen => by
    obtain ⟨-, hnone⟩ := hopen.get?_eq_none (consistent_empty mixedContext (fun _ => True) [])
      fun _ _ => trivial
    cases hnone.symm.trans hn
  refine ⟨load_mixedTypes, ?_⟩
  rcases branches_of_typeList load_mixedTypes distinct_mixedTypes mixedContext
    (.inr ⟨"List", normalize_mixedTypes.symm⟩) [] [.root] rfl rfl listsTypes_mixedMembers hl with
    hopen | ⟨node, cs, hnode, hkind, hlength, hbranches⟩
  · exact absurd hopen (hclosed 0 _ (by rw [hserve]; rfl))
  · refine ⟨node, cs, hnode, hkind, hlength, fun c hc => ?_⟩
    obtain ⟨hlookup, hbranch⟩ := hbranches 1 c hc
    have hthree : c = 3 := by
      rw [hserve] at hlookup
      exact (Option.some.inj hlookup).symm
    subst hthree
    rcases hbranch "null" .null rfl rfl with hopen | ⟨branch, hget, hiff⟩
    · exact absurd hopen (hclosed 3 _ (by rw [hserve]; rfl))
    · exact ⟨branch, hget, hiff.2 (.inl rfl)⟩

/-- A branch of a list of types may not stand for its type: a list with a description of items has
no branch of strings, although it names them. -/
theorem exists_branch_lost : ¬ ∀ (env : Environment) (options : Options)
    (location : Option FileUrl) (schema : Json) (g : SchemaGraph) (name : String) (root : NodeId)
    (t : Builder) (id : Fragment) (ms : Members) (types : List Json) (i : NodeId),
    schema.Distinct → SchemaGraph.load env options location schema = .ok g →
    (fragment ⟨g.normalize name, name, options⟩ .root none true).run {} = (.ok root, t) →
    id.variant = none → (g.normalize name).get? id = some (.object ms) → ListsTypes ms types →
    t.processed.lookup id = some i →
    ∃ node cs, t.graph.get? i = some node ∧ node.kind = .union cs ∧ cs.length = types.length ∧
      ∀ (j : Nat) (c : NodeId) (type : String) (kind : Kind), cs[j]? = some c →
        types[j]? = some (.string type) → basicKind? type = some kind →
        ∃ branch, t.graph.get? c = some branch ∧ branch.kind = kind := by
  intro h
  have hctx : (⟨(mixedGraph mixedTypes).normalize "List", "List", {}⟩ : BuildContext) =
      mixedContext := by
    rw [normalize_mixedTypes]
    rfl
  have hget : ((mixedGraph mixedTypes).normalize "List").get? .root =
      some (.object mixedMembers) := by
    rw [normalize_mixedTypes]
    rfl
  obtain ⟨node, cs, hnode, hkind, -, hbranches⟩ := h noFiles {} none mixedTypes _ "List" 0 _ .root
    mixedMembers _ 0 distinct_mixedTypes load_mixedTypes (by rw [hctx]; exact run_mixedContext) rfl
    hget listsTypes_mixedMembers rfl
  obtain rfl := Option.some.inj hnode
  obtain rfl := Kind.union.inj hkind
  obtain ⟨branch, hbranch, hstring⟩ := hbranches 0 1 "string" .string rfl rfl rfl
  obtain rfl := Option.some.inj hbranch
  cases hstring

end Build

end Typewright
