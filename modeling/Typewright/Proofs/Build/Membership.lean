import Mathlib
import Typewright.Proofs.Build.Renders
import Typewright.Proofs.TypeGraph.Widening

/-!
# Valid values are members

The node of a basic schema has all values that are valid under the schema, if the nodes of its parts
have (`Renders.admits`). By induction on the steps that a verdict takes, the root of a built graph has
all values that are valid under the root schema, and simplification loses none of them
(`member_of_valid`).
-/

namespace Typewright

namespace Build

variable {ctx : BuildContext} {asked : Request → Prop} {s : Builder} {ms : Members} {v x : Json}
  {kind : Kind} {same : Json → Json → Bool}

/-! ## One node -/

section Admits

variable {F : Json → Json → Option Bool} {G : NodeId → Json → Prop} {T : NodeId → Json → Prop}

/-- A value of a type with a name of its own is of the kind of that type. -/
theorem admits_of_hasType {name : String} (h : (name, kind) ∈ scalarKinds)
    (hx : x.hasType name = true) : kind.Admits same G x := by
  simp only [scalarKinds, List.mem_cons, Prod.mk.injEq, List.not_mem_nil, or_false] at h
  rcases h with ⟨rfl, rfl⟩ | ⟨rfl, rfl⟩ | ⟨rfl, rfl⟩ | ⟨rfl, rfl⟩ | ⟨rfl, rfl⟩ <;> cases x <;>
    simp_all [Json.hasType, Kind.Admits]

/-- What `F` decides of the schemas inside a schema holds of the nodes that stand for them. -/
structure Sound (s : Builder) (same : Json → Json → Bool) (T : NodeId → Json → Prop)
    (F : Json → Json → Option Bool) (G : NodeId → Json → Prop) : Prop where
  type : ∀ c v x, T c v → F v x = some true → G c x
  any : ∀ c x, Leaf s .any c → G c x
  literal : ∀ c value x, Leaf s (.literal value) c → same value x = true → G c x
  closed : ∀ x, F (.bool false) x ≠ some true

theorem property?_eq {named : Members}
    (h : (ms.lookup "properties").getD (.object []) = .object named) (key : String) :
    Schema.property? ms key = named.lookup key := by
  unfold Schema.property?
  cases hl : ms.lookup "properties" with
  | none =>
      rw [hl, Option.getD_none] at h
      obtain rfl := Json.object.inj h
      rfl
  | some value =>
      rw [hl, Option.getD_some] at h
      rw [h]
      rfl

/-- The interface of an object schema has the objects that the schema agrees to. -/
theorem admits_interface {named fields : Members} {members index : List InterfaceMember}
    (hF : Sound s same T F G) (hd : (Members.keys named).Nodup)
    (hagreed : Schema.Agreed same F ms (.object fields))
    (hproperties : (ms.lookup "properties").getD (.object []) = .object named)
    (htypes : List.Forall₂ (RendersMember T ms) named members)
    (hfurther : RendersIndex s T ms index) :
    InterfaceMember.Admits G (members ++ index) fields := by
  have hproperty := property?_eq hproperties
  have hindex : ∀ m ∈ index, ¬ m.IsField := by
    intro m hm hfield
    cases hfurther with
    | closed => cases hm
    | further | free => exact hfield.1 (List.mem_singleton.1 hm ▸ rfl)
  have hfield : ∀ m ∈ members ++ index, m.IsField → ∃ p ∈ named, RendersMember T ms p m := by
    intro m hm hfield
    rcases List.mem_append.1 hm with hm | hm
    · exact exists_of_forall₂_left htypes.flip hm
    · exact absurd hfield (hindex m hm)
  have hother : ∀ {key}, InterfaceMember.Foreign (members ++ index) key →
      Schema.property? ms key = none := by
    intro key hkey
    rw [hproperty]
    cases hl : named.lookup key with
    | none => rfl
    | some schema =>
        obtain ⟨m, hm, hrenders⟩ := exists_of_forall₂_left htypes (mem_of_lookup hl)
        exact absurd hrenders.key (hkey m (List.mem_append_left _ hm) hrenders.field)
  refine ⟨fun m hm hf hr => ?_, fun m hm hf y hy => ?_, fun f hf hforeign => ?_,
    fun f hf hforeign m hm hi => ?_⟩
  · obtain ⟨p, -, hrenders⟩ := hfield m hm hf
    obtain ⟨required, hl, hmem⟩ := hrenders.required hr
    rw [hrenders.key]
    exact hagreed.required required fields hl rfl _ hmem
  · obtain ⟨p, hp, hrenders⟩ := hfield m hm hf
    refine hF.type _ _ _ hrenders.type (hagreed.property fields rfl _ hy p.2 ?_)
    rw [hproperty, hrenders.key]
    exact Members.lookup_of_mem hd hp
  · have hagree := hagreed.further fields rfl f hf (hother hforeign)
    cases hfurther with
    | closed hl => exact absurd (hagree _ hl) (hF.closed f.2)
    | further | free =>
        exact ⟨_, List.mem_append_right _ (List.mem_singleton_self _), rfl, rfl, rfl⟩
  · rcases List.mem_append.1 hm with hm | hm
    · obtain ⟨p, -, hrenders⟩ := exists_of_forall₂_left htypes.flip hm
      exact absurd hi.1 hrenders.field.1
    · cases hfurther with
      | closed => cases hm
      | further hl type =>
          rw [List.mem_singleton.1 hm]
          exact hF.type _ _ _ type (hagreed.further fields rfl f hf (hother hforeign) _ hl)
      | free leaf =>
          rw [List.mem_singleton.1 hm]
          exact hF.any _ _ leaf

/-- The node of a basic schema has the values that the schema agrees to. -/
theorem Renders.admits {root : Json} (hF : Sound s same T F G) (h : Renders s T v kind)
    (hd : v.Distinct) (href : Loading.reference? v = none)
    (hx : Schema.verdict same F x root v = some true) : kind.Admits same G x := by
  have hagreed : ∀ {ms}, v = .object ms → Schema.Agreed same F ms x := by
    rintro ms rfl
    exact Schema.agreed_of_verdict hx href
  cases h with
  | any => trivial
  | never => cases hx
  | scalar type hscalar => exact admits_of_hasType hscalar ((hagreed rfl).type _ type)
  | constant const => exact (hagreed rfl).const _ const
  | literals enum leaves =>
      obtain ⟨value, hvalue, hsame⟩ := (hagreed rfl).enum _ enum
      obtain ⟨node, hnode, hleaf⟩ := exists_of_forall₂_left leaves hvalue
      exact ⟨node, hnode, hF.literal _ _ _ hleaf hsame⟩
  | enumeration enum leaves =>
      obtain ⟨value, hvalue, hsame⟩ := (hagreed rfl).enum _ enum
      obtain ⟨m, hm, hleaf⟩ := exists_of_forall₂_left leaves hvalue
      exact ⟨m, hm, hF.literal _ _ _ hleaf hsame⟩
  | list type items element =>
      have htype := (hagreed rfl).type _ type
      cases x with
      | array xs =>
          exact ⟨xs, rfl, fun y hy => hF.type _ _ _ element ((hagreed rfl).items _ xs items rfl y hy)⟩
      | _ => cases htype
  | someOf combines choice types =>
      obtain ⟨item, hitem, hagree⟩ := (hagreed rfl).someOf _ _ combines choice
      obtain ⟨node, hnode, htype⟩ := exists_of_forall₂_left types.flip hitem
      exact ⟨node, hnode, hF.type _ _ _ htype hagree⟩
  | allOf choice types =>
      intro node hnode
      obtain ⟨item, hitem, htype⟩ := exists_of_forall₂_left types hnode
      exact hF.type _ _ _ htype ((hagreed rfl).allOf _ choice item hitem)
  | object type =>
      have htype := (hagreed rfl).type _ type
      cases x <;> first | rfl | cases htype
  | @interface ms named members index type properties types further =>
      have htype := (hagreed rfl).type _ type
      cases x with
      | object fields =>
          refine ⟨⟨fields, rfl, admits_interface hF ?_ (hagreed rfl) properties types further⟩,
            List.forall_mem_nil _⟩
          cases hl : ms.lookup "properties" with
          | none =>
              rw [hl, Option.getD_none] at properties
              exact Json.object.inj properties ▸ List.nodup_nil
          | some value =>
              rw [hl, Option.getD_some] at properties
              exact (Json.distinct_object.1 (properties ▸ hd.lookup hl)).1
      | _ => cases htype

end Admits

/-! ## All nodes -/

section Within

variable {g : SchemaGraph} {root : Json} {name : String}

theorem Leaf.within {c : NodeId} (h : Leaf s kind c) (hx : ∀ F, kind.Admits same F x) (n : Nat) :
    s.graph.Within same (fun i => i) (n + 1) c x := by
  obtain ⟨node, hn, -, rfl⟩ := h
  exact ⟨node, hn, hx _⟩

/-- The node of a reference is that of its target. -/
theorem Finds.target {site next : Fragment} {c : NodeId} (h : Finds ctx s site c)
    (hl : ctx.schemas.refs.lookup site = some (.fragment next)) : Finds ctx s next c := by
  unfold Finds at h ⊢
  split at h
  · rename_i hr
    rwa [SchemaGraph.resolve_of_lookup hl hr]
  · rename_i hr
    rwa [SchemaGraph.resolve_of_lookup hl hr]
  · exact h.elim

/-- A node has the values that are valid under the schema it was made for, one step later. -/
theorem Finished.within (h : Finished g root name ctx asked s) {n : Nat} {c : NodeId}
    (hc : Types ctx s root c v) (hx : Schema.valid same root n v x = some true) :
    s.graph.Within same (fun i => i) (n + 1) c x := by
  induction n generalizing c v x with
  | zero => cases hx
  | succ n ih =>
      obtain ⟨path, hp, hb, hf⟩ := hc
      cases href : Loading.reference? v with
      | none =>
          have hself : root.at? "#" = some root := rfl
          have hd := (Schema.at?_of_mem_positions hself h.loaded.distinct _ hp).2
          obtain ⟨node, hn, hrenders⟩ := h.exists_renders hp hb href hf
          have hsound : Sound s same (Types ctx s root) (Schema.valid same root n)
              (s.graph.Within same (fun i => i) (n + 1)) := by
            refine ⟨fun _ _ _ => ih, fun _ _ hleaf => hleaf.within (fun _ => trivial) n,
              fun _ _ _ hleaf hsame => hleaf.within (fun _ => hsame) n, fun x => ?_⟩
            cases n <;> exact nofun
          exact ⟨node, hn, hrenders.admits hsound hd href hx⟩
      | some reference =>
          obtain ⟨ms, key, rfl, hlookup, hkey⟩ := hb.exists_of_reference href
          obtain ⟨next, w, hl, hw, hbasic, htarget⟩ := h.loaded.definition h.basic hp hlookup hkey
          obtain ⟨w', hw', hx⟩ := Schema.exists_of_verdict_reference hx hlookup hkey
          obtain rfl := Option.some.inj (htarget.symm.trans hw')
          have hl' : ctx.schemas.refs.lookup ⟨0, path, none⟩ = some (.fragment ⟨0, next, none⟩) := by
            rwa [h.schemas, SchemaGraph.refs_normalize]
          exact (ih ⟨next, hw, hbasic, hf.target hl'⟩ hx).succ

/-! ## Plain graphs -/

/-- A node of a basic schema, or one below it that stands for no schema. -/
def Traced (ctx : BuildContext) (s : Builder) (root : Json) (c : NodeId) : Prop :=
  (∃ v, Types ctx s root c v) ∨ Leaf s .any c ∨ ∃ value, value.Normal ∧ Leaf s (.literal value) c

theorem normal_lookup {key : String} (h : (Json.object ms).Normal) (hl : ms.lookup key = some v) :
    v.Normal :=
  Json.normal_of_mem_members h _ (mem_of_lookup hl)

theorem normal_of_part {steps : List String} (h : (Json.object ms).Normal)
    (hp : Schema.Part ms steps v) : v.Normal := by
  obtain ⟨keyword, shape, value, segments, -, hl, hp, rfl⟩ := hp
  have hvalue := normal_lookup h hl
  have hitems : ∀ {xs : List Json}, value = .array xs → (segments, v) ∈ Schema.Shape.indexed 0 xs →
      v.Normal := by
    rintro xs rfl hmem
    obtain ⟨i, -, hi⟩ := Schema.Shape.of_mem_indexed hmem
    exact Json.normal_of_mem hvalue v (List.mem_of_getElem? hi)
  unfold Schema.Shape.parts at hp
  split at hp
  · obtain ⟨m, hm, heq⟩ := List.mem_map.1 hp
    obtain ⟨-, rfl⟩ := Prod.mk.inj heq
    exact Json.normal_of_mem_members hvalue m hm
  · exact (Prod.mk.inj (List.mem_singleton.1 hp)).2 ▸ hvalue
  · exact hitems rfl hp
  · exact hitems rfl hp
  · exact (Prod.mk.inj (List.mem_singleton.1 hp)).2 ▸ hvalue
  · cases hp

theorem normal_of_mem_positions (h : root.Normal) :
    ∀ c ∈ Schema.positions "#" root, c.2.Normal :=
  Schema.positions_induction (P := fun _ w => w.Normal) h fun _ _ _ _ hms hp _ =>
    normal_of_part hms hp

/-- The kind of the node of a basic schema shows where it ends, and its children are traced, too. -/
theorem Renders.traced (h : Renders s (Types ctx s root) v kind) (hv : v.Normal) :
    kind.Plain ∧ kind.Defined ∧ ∀ c ∈ kind.children, Traced ctx s root c := by
  have hleaf : kind.children = [] → ∀ c ∈ kind.children, Traced ctx s root c := by
    intro hnil c hc
    rw [hnil] at hc
    cases hc
  have hliteral : ∀ {ms values value c}, v = .object ms → ms.lookup "enum" = some (.array values) →
      value ∈ values → Leaf s (.literal value) c → Traced ctx s root c := by
    rintro ms values value c rfl henum hvalue hc
    exact .inr (.inr ⟨value, Json.normal_of_mem (normal_lookup hv henum) _ hvalue, hc⟩)
  cases h with
  | any => exact ⟨trivial, ⟨Kind.noConfusion, Kind.noConfusion⟩, hleaf rfl⟩
  | never =>
      have hplain : (Kind.customType "never").Plain := by
        show Identifier.isBare "never".toList = true
        decide
      exact ⟨hplain, ⟨by simp, Kind.noConfusion⟩, hleaf rfl⟩
  | scalar type hscalar =>
      simp only [scalarKinds, List.mem_cons, Prod.mk.injEq, List.not_mem_nil, or_false] at hscalar
      rcases hscalar with ⟨-, rfl⟩ | ⟨-, rfl⟩ | ⟨-, rfl⟩ | ⟨-, rfl⟩ | ⟨-, rfl⟩ <;>
        exact ⟨trivial, ⟨Kind.noConfusion, Kind.noConfusion⟩, hleaf rfl⟩
  | constant const =>
      exact ⟨normal_lookup hv const, ⟨Kind.noConfusion, Kind.noConfusion⟩, hleaf rfl⟩
  | literals enum leaves =>
      refine ⟨trivial, ⟨Kind.noConfusion, Kind.noConfusion⟩, fun c hc => ?_⟩
      obtain ⟨value, hvalue, hc⟩ := exists_of_forall₂_left leaves.flip hc
      exact hliteral rfl enum hvalue hc
  | enumeration enum leaves =>
      refine ⟨trivial, ⟨Kind.noConfusion, Kind.noConfusion⟩, List.forall_mem_map.2 fun m hm => ?_⟩
      obtain ⟨value, hvalue, hc⟩ := exists_of_forall₂_left leaves.flip hm
      exact hliteral rfl enum hvalue hc
  | list type items element =>
      refine ⟨trivial, ⟨Kind.noConfusion, Kind.noConfusion⟩, fun c hc => ?_⟩
      exact List.mem_singleton.1 hc ▸ .inl ⟨_, element⟩
  | someOf combines choice types | allOf choice types =>
      refine ⟨trivial, ⟨Kind.noConfusion, Kind.noConfusion⟩, fun c hc => ?_⟩
      obtain ⟨item, -, htype⟩ := exists_of_forall₂_left types hc
      exact .inl ⟨item, htype⟩
  | object type => exact ⟨trivial, ⟨Kind.noConfusion, Kind.noConfusion⟩, hleaf rfl⟩
  | interface type properties types further =>
      refine ⟨trivial, ⟨Kind.noConfusion, Kind.noConfusion⟩, fun c hc => ?_⟩
      rw [Kind.children, List.append_nil, List.map_append] at hc
      rcases List.mem_append.1 hc with hc | hc
      · obtain ⟨m, hm, rfl⟩ := List.mem_map.1 hc
        obtain ⟨p, -, hrenders⟩ := exists_of_forall₂_left types.flip hm
        exact .inl ⟨p.2, hrenders.type⟩
      · cases further with
        | closed => cases hc
        | further hl type => exact List.mem_singleton.1 hc ▸ .inl ⟨_, type⟩
        | free leaf => exact List.mem_singleton.1 hc ▸ .inr (.inl leaf)

/-- A node that was made for a reference was made for the schema at the end of the chain. -/
theorem Finished.exists_base (h : Finished g root name ctx asked s) {c : NodeId}
    (hc : Types ctx s root c v) : ∃ path w, (path, w) ∈ Schema.positions "#" root ∧
      Schema.Basic w ∧ Loading.reference? w = none ∧ Finds ctx s ⟨0, path, none⟩ c := by
  obtain ⟨path, hp, hb, hf⟩ := hc
  have hrefs : ctx.schemas.refs = g.refs := by rw [h.schemas, SchemaGraph.refs_normalize]
  unfold Finds at hf
  cases hr : ctx.schemas.resolve ⟨0, path, none⟩ with
  | error e => rw [hr] at hf; exact hf.elim
  | ok t =>
      obtain ⟨next, w, hw, hbasic, href, rfl⟩ :=
        h.loaded.exists_of_follow h.basic hrefs hp hb hr
      refine ⟨next, w, hw, hbasic, href, ?_⟩
      rw [hr] at hf
      rwa [Finds, SchemaGraph.resolve_of_lookup_eq_none (hrefs ▸ h.loaded.lookup_eq_none hw href)]

/-- A traced node is built, shows where it ends, and leads to traced nodes. -/
theorem Finished.traced (h : Finished g root name ctx asked s) (hroot : root.Normal) {c : NodeId}
    (hc : Traced ctx s root c) : ∃ node, s.graph.get? c = some node ∧ node.kind.Plain ∧
      node.kind.Defined ∧ ∀ d ∈ node.kind.children, Traced ctx s root d := by
  rcases hc with ⟨v, hc⟩ | ⟨node, hn, -, hk⟩ | ⟨value, hvalue, node, hn, -, hk⟩
  · obtain ⟨path, w, hp, hb, href, hf⟩ := h.exists_base hc
    obtain ⟨node, hn, hrenders⟩ := h.exists_renders hp hb href hf
    exact ⟨node, hn, hrenders.traced (normal_of_mem_positions hroot _ hp)⟩
  · refine ⟨node, hn, ?_⟩
    rw [hk]
    exact ⟨trivial, ⟨Kind.noConfusion, Kind.noConfusion⟩, nofun⟩
  · refine ⟨node, hn, ?_⟩
    rw [hk]
    exact ⟨hvalue, ⟨Kind.noConfusion, Kind.noConfusion⟩, nofun⟩

theorem Finished.traced_of_reaches (h : Finished g root name ctx asked s) (hroot : root.Normal)
    {first c : NodeId} (hfirst : Traced ctx s root first)
    (hc : ({ s.graph with root := first } : TypeGraph).Reaches c) : Traced ctx s root c := by
  induction hc with
  | refl => exact hfirst
  | @tail b c _ hbc ih =>
      obtain ⟨node, hn, -, -, hchildren⟩ := h.traced hroot ih
      have hmem : c ∈ s.graph.childrenOf b := hbc
      rw [s.graph.childrenOf_eq hn] at hmem
      exact hchildren c hmem

end Within

end Build

/-! ## The root -/

/-- A value that is valid under a basic schema is of the type that the schema is compiled to. -/
theorem member_of_valid {env : Environment} {options : Options} {location : Option FileUrl}
    {schema x : Json} {name : String} {g : SchemaGraph} {graph : TypeGraph}
    {same : Json → Json → Bool} {steps : Nat} (hd : schema.Distinct) (hn : schema.Normal)
    (hb : Schema.BasicRoot schema) (hu : options.unreachableDefinitions = false)
    (hload : SchemaGraph.load env options location schema = .ok g)
    (hbuild : TypeGraph.ofSchemas ⟨g.normalize name, name, options⟩ = .ok graph)
    (hx : Schema.valid same schema steps schema x = some true) :
    (graph.simplify false).Member same (graph.simplify false).root x := by
  obtain ⟨s, hconsistent, hin, hgraph, hfinds, -⟩ := TypeGraph.exists_builder hbuild
  have h : Build.Finished g schema name ⟨g.normalize name, name, options⟩ (· = .root) s :=
    { loaded := SchemaGraph.loaded_of_load hload hd
      basic := hb
      schemas := rfl
      distinct := (SchemaGraph.distinct_of_load hload hd).normalize name
      dropped := hu
      consistent := hconsistent
      inProgress := hin }
  have hroot : Build.Types ⟨g.normalize name, name, options⟩ s schema graph.root schema :=
    ⟨"#", Schema.mem_positions_self _ _, hb.basic, hfinds⟩
  have hget : graph.get? = s.graph.get? := by rw [hgraph]; rfl
  have htraced : ∀ {c}, graph.Reaches c → Build.Traced ⟨g.normalize name, name, options⟩ s schema c :=
    fun hc => h.traced_of_reaches hn (.inl ⟨schema, hroot⟩) (hgraph ▸ hc)
  have hkind : ∀ {c node}, graph.Reaches c → graph.get? c = some node →
      node.kind.Plain ∧ node.kind.Defined := by
    intro c node hc hn'
    obtain ⟨node', hn'', hplain, hdefined, -⟩ := h.traced hn (htraced hc)
    obtain rfl := Option.some.inj (hn'.symm.trans (hget ▸ hn''))
    exact ⟨hplain, hdefined⟩
  have hlabelled := TypeGraph.labelled_ofSchemas hbuild
  refine TypeGraph.Member.simplify (TypeGraph.wellFormed_ofSchemas hbuild).inside hlabelled
    ⟨fun _ _ hc hnode => (hkind hc hnode).1, fun i node text _ hnode hname =>
      (hlabelled.clean i node text hnode hname).bare⟩ (fun _ _ hc hnode => (hkind hc hnode).2) false ?_
  exact ⟨steps + 1, (h.within hroot hx).congr hget⟩

/-! ### Nested lists -/

namespace Build

/-- Where the schema of the items is. -/
def listSite : Fragment := ⟨0, "#/definitions/list", none⟩

def listMembers : Members :=
  [("type", .string "array"), ("items", .object [("$ref", .string "#/definitions/list")])]

/-- The schema of the lists of nested lists, with a definition that refers to itself. -/
def nestedLists : Json :=
  .object (listMembers ++ [("definitions", .object [("list", .object listMembers)])])

def normalNestedLists : Json :=
  .object [("type", .string "array"), ("definitions", .object [("list", .object listMembers)]),
    ("items", .object [("$ref", .string "#/definitions/list")]), ("required", .array []),
    ("title", .string "Lists")]

def nestedGraph (schema : Json) : SchemaGraph where
  documents := [⟨none, schema⟩]
  refs := [(below listSite ["items"], .fragment listSite), (below .root ["items"], .fragment listSite)]
  maxDepth := 50

def nestedContext : BuildContext := ⟨nestedGraph normalNestedLists, "Lists", {}⟩

/-- The node of the root and the node of the definition are lists of the latter. -/
def listGraph : TypeGraph where
  nodes := #[some { kind := .array 1, name := some "Lists" },
    some { kind := .array 1, name := some "List" }]
  root := 0

theorem run_nestedContext : (fragment nestedContext .root none true).run {} = (.ok 0, {
    graph := listGraph
    processed := [(listSite, 1), (.root, 0)]
    usedNames := ["Lists", "List"]
    needsName := [1] }) := by
  have hroot : nestedContext.schemas.resolve .root = .ok (.fragment .root) := by rfl
  have hitems : nestedContext.schemas.resolve (below .root ["items"]) = .ok (.fragment listSite) := by
    rfl
  have hitems' : nestedContext.schemas.resolve (below listSite ["items"]) =
      .ok (.fragment listSite) := by rfl
  have hget : nestedContext.schemas.get? listSite = some (.object listMembers) := by rfl
  have hhint : nameHint nestedContext .root normalNestedLists none true = some "Lists" := by rfl
  have hhint' : nameHint nestedContext listSite (.object listMembers) none false = some "list" := by
    rfl
  have hform : Schema.form nestedContext.options.unreachableDefinitions (Fragment.root).variant
      normalNestedLists = .listOf (.object [("$ref", .string "#/definitions/list")]) := by rfl
  have hform' : Schema.form nestedContext.options.unreachableDefinitions listSite.variant
      (.object listMembers) = .listOf (.object [("$ref", .string "#/definitions/list")]) := by rfl
  have hgetRoot : nestedContext.schemas.get? .root = some normalNestedLists := by rfl
  refine run_of_ends ((ends_fragment hgetRoot).2 ?_)
  rw [ends_visit_new hroot rfl List.not_mem_nil, ends_build_named hhint rfl,
    ends_parts_listOf hform, ends_visit_target hitems rfl (by decide) (by decide) hget,
    ends_build_named hhint' rfl, ends_parts_listOf hform',
    ends_visit_seen hitems' rfl]
  exact ⟨rfl, rfl⟩

theorem basicRoot_nestedLists : Schema.BasicRoot nestedLists := by
  have hitem : Schema.Basic (.object [("$ref", .string "#/definitions/list")]) :=
    .reference (by simp [Schema.Only]) rfl (by rfl)
  refine ⟨.list (by simp [Schema.Only, listMembers, Schema.annotations]) rfl rfl hitem, ?_⟩
  intro value hvalue
  obtain rfl := Option.some.inj hvalue
  refine ⟨_, rfl, fun m hm => ?_⟩
  rw [List.mem_singleton.1 hm]
  exact .list (by simp [Schema.Only, listMembers]) rfl rfl hitem

end Build

/-- Nested lists are of the type of nested lists. -/
theorem member_of_valid_nestedLists :
    SchemaGraph.load Build.noFiles {} none Build.nestedLists =
      .ok (Build.nestedGraph Build.nestedLists) ∧
    TypeGraph.ofSchemas ⟨(Build.nestedGraph Build.nestedLists).normalize "Lists", "Lists", {}⟩ =
      .ok Build.listGraph ∧
    Schema.valid (fun v w => v == w) Build.nestedLists 6 Build.nestedLists
      (.array [.array [], .array [.array []]]) = some true ∧
    (Build.listGraph.simplify false).Member (fun v w => v == w) (Build.listGraph.simplify false).root
      (.array [.array [], .array [.array []]]) := by
  have hload : SchemaGraph.load Build.noFiles {} none Build.nestedLists =
      .ok (Build.nestedGraph Build.nestedLists) := by cbv
  have hnormal : (Build.nestedGraph Build.nestedLists).normalize "Lists" =
      Build.nestedGraph Build.normalNestedLists := by cbv
  have hbuild : TypeGraph.ofSchemas
      ⟨(Build.nestedGraph Build.nestedLists).normalize "Lists", "Lists", {}⟩ =
        .ok Build.listGraph := by
    rw [hnormal]
    change TypeGraph.ofSchemas Build.nestedContext = _
    unfold TypeGraph.ofSchemas
    rw [Build.run_nestedContext]
    rfl
  have hd : Build.nestedLists.Distinct := by
    simp [Build.nestedLists, Build.listMembers, Json.Distinct, Json.DistinctMembers, Members.keys]
  have hn : Build.nestedLists.Normal := by
    simp [Build.nestedLists, Build.listMembers, Json.Normal, Json.NormalMembers]
  have hx : Schema.valid (fun v w => v == w) Build.nestedLists 6 Build.nestedLists
      (.array [.array [], .array [.array []]]) = some true := by cbv
  exact ⟨hload, hbuild, hx, member_of_valid hd hn Build.basicRoot_nestedLists rfl hload hbuild hx⟩

end Typewright
