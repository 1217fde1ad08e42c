import Typewright.Proofs.Build.Finished
import Typewright.Proofs.Build.Interface
import Typewright.Proofs.Build.Traces

/-!
# Inheritance

A super type is refused while its node is unfinished. So a build that succeeds has no inheritance
in circles, and a build that fails for this reason has come back, from a super type, to the fragment
that extends it (`inheritance_of_fragment`). But it need not have come back through super types
alone: an interface with a member that extends it is refused as well (`exists_refused_acyclic`).
-/

namespace Typewright

namespace Build

variable {ctx : BuildContext} {id site target : Fragment} {ms : Members}

/-! ## Chains -/

theorem not_transGen_of_acc {α : Type} {r : α → α → Prop} {a : α} (h : Acc (fun b a => r a b) a) :
    ¬ Relation.TransGen r a a := by
  induction h with
  | intro a _ ih =>
      intro hcycle
      obtain ⟨b, hab, hba⟩ := Relation.TransGen.head'_iff.1 hcycle
      exact ih b hab (.tail' hba hab)

/-- What leads from one fragment to another is inheritance all the way, or has a part in it. -/
theorem inherits_or_contains {a b : Fragment} (h : Relation.ReflTransGen (Leads ctx) a b) :
    Relation.ReflTransGen (Extends ctx) a b ∨ ∃ c d, Relation.ReflTransGen (Leads ctx) a c ∧
      Contains ctx c d ∧ Relation.ReflTransGen (Leads ctx) d b := by
  induction h with
  | refl => exact .inl .refl
  | @tail b c hab hbc ih =>
      rcases hbc with hcontains | hextends
      · exact .inr ⟨b, c, hab, hcontains, .refl⟩
      · rcases ih with hall | ⟨d, e, had, hde, heb⟩
        · exact .inl (hall.tail hextends)
        · exact .inr ⟨d, e, had, hde, heb.tail (.inr hextends)⟩

/-- A build that succeeds has met no inheritance in circles. A build that fails since a super type
is unfinished has met a fragment whose super type leads back to it: the fragment inherits from
itself, or one of the fragments on the way is a part of the one before it. -/
theorem inheritance_of_fragment (hd : ctx.schemas.Distinct) :
    Ends (fragment ctx .root none true) {}
      (fun _ s => ∀ id i, s.processed.lookup id = some i →
        ∀ a, Relation.ReflTransGen (Extends ctx) id a → ¬ Relation.TransGen (Extends ctx) a a)
      fun e _ => ∀ pointer, e = .schema pointer .extendsUnfinished →
        ∃ id site target, ExtendsAt ctx id site target ∧ site.pointer = pointer ∧
          (Relation.TransGen (Extends ctx) id id ∨
            ∃ a b, Relation.ReflTransGen (Leads ctx) target a ∧ Contains ctx a b ∧
              Relation.ReflTransGen (Leads ctx) b id) := by
  have hempty := consistent_empty ctx (· = .root) []
  refine Ends.mono (Ends.and (TypeGraph.runs_root ctx) (traces_fragment hd .root {} hempty rfl rfl))
    (fun root s hs id i hl a ha => ?_) fun e _ he pointer heq => ?_
  · obtain ⟨⟨hadv, -⟩, htells, -⟩ := hs
    obtain ⟨node, hn⟩ :=
      hadv.consistent.exists_node hadv.inProgress (hadv.consistent.processed id i hl).1
    obtain ⟨hacc, -⟩ := htells.orderly (fun _ _ _ hl => nomatch hl) id i node hl hn
    have hacc' : Acc (fun b a => Extends ctx a b) a := by
      induction ha with
      | refl => exact hacc
      | tail _ hbc ih => exact ih.inv hbc
    exact not_transGen_of_acc hacc'
  · obtain ⟨id, site, target, hat, hpointer, hback⟩ := he.2 pointer heq
    refine ⟨id, site, target, hat, hpointer, ?_⟩
    exact (inherits_or_contains hback).imp_left fun hall => .head' ⟨site, hat⟩ hall

/-! ## Cycles -/

theorem part_of_mem_superSites (h : site ∈ superSites id ms) :
    ∃ steps v, Schema.Part ms steps v ∧ site = below id steps := by
  have hk : ("tsExtends", Schema.Shape.oneOrList) ∈ Schema.keywords := by decide
  unfold superSites at h
  split at h
  · rename_i targets hl
    obtain ⟨⟨v, i⟩, hmem, rfl⟩ := List.mem_map.1 h
    refine ⟨["tsExtends", toString i], v, ⟨"tsExtends", _, _, [toString i], hk, hl, ?_, rfl⟩, rfl⟩
    have hmem' := Schema.Shape.mem_indexed (List.mem_zipIdx_iff_getElem?.1 hmem) 0
    rwa [Nat.zero_add] at hmem'
  · rename_i v hl
    exact ⟨["tsExtends"], .object v,
      ⟨"tsExtends", _, _, [], hk, hl, List.mem_singleton_self _, rfl⟩, List.mem_singleton.1 h⟩
  · cases h

/-- A super type that is no target of a reference is a part of the schema. -/
theorem Extends.target_or_smaller (hd : ctx.schemas.Distinct) (h : Extends ctx id target) :
    target ∈ ctx.schemas.targets ∨ ∃ v w, ctx.schemas.get? id = some v ∧
      ctx.schemas.get? target = some w ∧ sizeOf w < sizeOf v := by
  obtain ⟨site, ms, hform, hsite, hr⟩ := h
  rcases ctx.schemas.resolve_eq_or_mem hr with rfl | htarget
  · obtain ⟨steps, v, hpart, rfl⟩ := part_of_mem_superSites hsite
    refine .inr ⟨_, v, hform.get?, get?_below hd hform.get? hpart, ?_⟩
    have hsize := hpart.sizeOf_lt
    simp only [Json.object.sizeOf_spec]
    omega
  · exact .inl htarget

/-- Inheritance in circles needs a reference to a fragment that extends another. -/
theorem not_transGen_extends (hd : ctx.schemas.Distinct)
    (h : ∀ target ∈ ctx.schemas.targets, ∀ b, ¬ Extends ctx target b) (id : Fragment) :
    ¬ Relation.TransGen (Extends ctx) id id := by
  have hacc : ∀ n id v, ctx.schemas.get? id = some v → sizeOf v = n →
      Acc (fun b a => Extends ctx a b) id := by
    intro n
    induction n using Nat.strongRecOn with
    | ind n ih =>
        intro id v hget hsize
        refine ⟨_, fun target htarget => ?_⟩
        rcases htarget.target_or_smaller hd with hmem | ⟨v', w, hget', hw, hlt⟩
        · exact ⟨_, fun b hb => (h target hmem b hb).elim⟩
        · obtain rfl := Option.some.inj (hget.symm.trans hget')
          exact ih (sizeOf w) (hsize ▸ hlt) target w hw rfl
  intro hcycle
  obtain ⟨b, ⟨site, ms, hform, -⟩, -⟩ := Relation.TransGen.head'_iff.1 hcycle
  exact not_transGen_of_acc (hacc _ id _ hform.get? rfl) hcycle

/-! ## An interface with a member that extends it -/

/-- A schema that extends the root. -/
def childMembers : Members :=
  [("title", .string "Child"), ("tsExtends", .object [("$ref", .string "#")])]

/-- The schema of an interface with a property whose type extends it. -/
def baseSchema : Json := .object [("properties", .object [("child", .object childMembers)])]

/-- The members of that schema in normal form. -/
def baseMembers : Members :=
  [("properties", .object [("child", .object childMembers)]), ("additionalProperties", .bool true),
    ("required", .array []), ("title", .string "Base")]

def baseGraph (root : Json) : SchemaGraph where
  documents := [⟨none, root⟩]
  refs := [(⟨0, "#/properties/child/tsExtends", none⟩, .fragment .root)]
  maxDepth := 50

def baseContext : BuildContext where
  schemas := baseGraph (.object baseMembers)
  rootName := "Base"
  options := {}

theorem load_baseSchema :
    SchemaGraph.load noFiles {} none baseSchema = .ok (baseGraph baseSchema) := by
  cbv

theorem normalize_baseSchema :
    (baseGraph baseSchema).normalize "Base" = baseContext.schemas := by
  rfl

theorem distinct_baseSchema : baseSchema.Distinct :=
  ⟨List.nodup_singleton _, ⟨List.nodup_singleton _,
    ⟨by decide, trivial, ⟨List.nodup_singleton _, trivial, trivial⟩, trivial⟩, trivial⟩, trivial⟩

theorem distinct_baseContext : baseContext.schemas.Distinct := by
  rw [← normalize_baseSchema]
  exact (SchemaGraph.distinct_of_load load_baseSchema distinct_baseSchema).normalize "Base"

/-- What the build of that schema leaves behind. -/
def baseBuilder : Builder where
  graph := ⟨#[none, none, some { kind := .any }], 0⟩
  processed := [(⟨0, "#/properties/child", none⟩, 1), (.root, 0)]
  usedNames := ["Base", "Child"]
  inProgress := [1, 0]
  needsName := [0]

theorem interface_childMembers (path : List Fragment) (id : Fragment) (parent : String) :
    interface baseContext path id childMembers parent = (do
      let any ← add .any
      let node ← visit baseContext path (below id ["tsExtends"])
        (.object [("$ref", .string "#")]) none false
      checkSuper (below id ["tsExtends"]) node
      return .interface (interfaceMembers childMembers [] [] [] [indexMember any]) [node]) := by
  rw [interface_of_reachable rfl]
  simp only [show namedMembers childMembers "properties" = [] by rfl,
    show namedMembers childMembers "patternProperties" = [] by rfl, visitNamed, pure_bind,
    show childMembers.lookup "additionalProperties" = none by rfl,
    show childMembers.lookup "tsExtends" = some (.object [("$ref", .string "#")]) by rfl, indexOf,
    supersOf, show singlePattern childMembers [] = false by rfl, Bool.false_eq_true, if_false,
    bind_assoc, indexMember]

theorem run_baseContext : (fragment baseContext .root none true).run {} =
    (.error (.schema "#/properties/child/tsExtends" .extendsUnfinished), baseBuilder) := by
  have hroot : baseContext.schemas.resolve .root = .ok (.fragment .root) := by rfl
  have hchild : baseContext.schemas.resolve (below .root ["properties", "child"]) =
      .ok (.fragment (below .root ["properties", "child"])) := by rfl
  have hsuper : baseContext.schemas.resolve
      (below (below .root ["properties", "child"]) ["tsExtends"]) = .ok (.fragment .root) := by rfl
  have hform : Schema.form baseContext.options.unreachableDefinitions (Fragment.root).variant
      (.object baseMembers) = .interface baseMembers := by rfl
  have hform' : Schema.form baseContext.options.unreachableDefinitions
      (below .root ["properties", "child"]).variant (.object childMembers) =
      .interface childMembers := by rfl
  have hhint : nameHint baseContext .root (.object baseMembers) none true = some "Base" := by rfl
  have hhint' : nameHint baseContext (below .root ["properties", "child"]) (.object childMembers)
      (some "child") false = some "Child" := by rfl
  refine run_of_ends_error ?_
  rw [ends_fragment (by rfl), ends_visit_new hroot rfl List.not_mem_nil, ends_build_named hhint rfl,
    parts_eq, hform, partsOf, interface_of_reachable rfl, ends_bind,
    show namedMembers baseMembers "properties" = [("child", .object childMembers)] by rfl,
    visitNamed, ends_bind, ends_visit_new hchild rfl (by decide), ends_build_named hhint' rfl,
    parts_eq, hform', partsOf, interface_childMembers]
  simp only [ends_bind]
  rw [ends_add, ends_visit_seen hsuper rfl]
  exact ⟨rfl, rfl⟩

/-- The super type of the property leads back to it: the property is a part of what it extends. -/
theorem inheritance_of_fragment_base :
    baseContext.schemas.Distinct ∧
    (fragment baseContext .root none true).run {} =
      (.error (.schema "#/properties/child/tsExtends" .extendsUnfinished), baseBuilder) ∧
    ∃ id site target, ExtendsAt baseContext id site target ∧
      site.pointer = "#/properties/child/tsExtends" ∧
      (Relation.TransGen (Extends baseContext) id id ∨
        ∃ a b, Relation.ReflTransGen (Leads baseContext) target a ∧ Contains baseContext a b ∧
          Relation.ReflTransGen (Leads baseContext) b id) := by
  have h := inheritance_of_fragment distinct_baseContext
  unfold Ends at h
  rw [run_baseContext] at h
  exact ⟨distinct_baseContext, run_baseContext, h _ rfl⟩

theorem not_extends_root (target : Fragment) : ¬ Extends baseContext .root target := by
  rintro ⟨site, ms, hform, hsite, -⟩
  have hroot : HasForm baseContext .root (.interface baseMembers) := ⟨_, rfl, rfl⟩
  obtain rfl := Schema.Form.interface.inj (hroot.unique hform)
  have hnone : superSites .root baseMembers = [] := by rfl
  rw [hnone] at hsite
  cases hsite

/-- A super type may be refused where nothing inherits from itself. -/
theorem exists_refused_acyclic : ¬ ∀ (env : Environment) (options : Options)
    (location : Option FileUrl) (schema : Json) (g : SchemaGraph) (name pointer : String),
    schema.Distinct → SchemaGraph.load env options location schema = .ok g →
    TypeGraph.ofSchemas ⟨g.normalize name, name, options⟩ =
      .error (.schema pointer .extendsUnfinished) →
    ∃ id, Relation.TransGen (Extends ⟨g.normalize name, name, options⟩) id id := by
  intro h
  have hctx : (⟨(baseGraph baseSchema).normalize "Base", "Base", {}⟩ : BuildContext) =
      baseContext := by
    rw [normalize_baseSchema]
    rfl
  have hrefused : TypeGraph.ofSchemas baseContext =
      .error (.schema "#/properties/child/tsExtends" .extendsUnfinished) := by
    unfold TypeGraph.ofSchemas
    rw [run_baseContext]
  obtain ⟨id, hcycle⟩ := h noFiles {} none baseSchema _ "Base" _ distinct_baseSchema load_baseSchema
    (hctx ▸ hrefused)
  rw [hctx] at hcycle
  refine not_transGen_extends distinct_baseContext (fun target htarget b => ?_) id hcycle
  rw [List.mem_singleton.1 (show target ∈ [Fragment.root] from htarget)]
  exact not_extends_root b

end Build

end Typewright
