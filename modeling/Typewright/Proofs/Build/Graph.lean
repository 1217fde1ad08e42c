import Typewright.Proofs.Build.Visit
import Typewright.Proofs.TypeGraph.Names

/-!
# The graph of a build

The build of the root fragment starts without nodes and ends without unfinished ones. So every slot
of a type graph that is built from schemas holds a node, no cycle consists of unnamed nodes alone,
super types are named interfaces, and names are clean and distinct.
-/

namespace Typewright

variable {ctx : BuildContext} {asked : Request → Prop} {g : TypeGraph}

namespace Build

/-- Nothing is built at first, whatever names are in use. -/
theorem consistent_empty (ctx : BuildContext) (asked : Request → Prop) (usedNames : List String) :
    Consistent ctx asked { usedNames } where
  fits _ _ hn := nomatch hn
  names _ _ _ hn := nomatch hn
  distinct _ _ _ _ _ hn := nomatch hn
  cycles i hcycle := by
    obtain ⟨_, ⟨_, hn, -⟩, -⟩ := Relation.TransGen.head'_iff.1 hcycle
    cases hn
  processed _ _ hl := nomatch hl
  separate _ _ _ hl := nomatch hl
  references _ _ hl := nomatch hl
  pending i := ⟨nofun, fun hi => absurd hi.1 (Nat.not_lt_zero i)⟩
  sourced _ _ hn := nomatch hn

/-- What is built so far refers to slots, whatever node is the root. -/
theorem Consistent.inside {s : Builder} (h : Consistent ctx asked s) (root : NodeId) :
    TypeGraph.Inside { s.graph with root } := by
  intro id _ c hc
  unfold TypeGraph.childrenOf at hc
  split at hc
  · cases hc
  · rename_i node hn
    exact ((h.fits id node hn).children c hc).1

/-- What is built so far is labelled. -/
theorem Consistent.labelled {s : Builder} (h : Consistent ctx asked s) (root : NodeId) :
    TypeGraph.Labelled { s.graph with root } where
  clean id node name hn hname := (h.names id node name hn hname).1
  distinct := h.distinct
  enums id node members hn hkind m hm := (h.fits id node hn).enums members hkind m hm

end Build

namespace TypeGraph

open Build

theorem runs_root (ctx : BuildContext) :
    Runs ctx (· = .root) {} (fragment ctx .root none true) fun i t =>
      Finds ctx t .root i ∧ Known t i :=
  runs_fragment .root {} (consistent_empty ctx (· = .root) []) rfl

/-- What is known of a graph that is built from schemas. -/
theorem exists_builder (h : ofSchemas ctx = .ok g) :
    ∃ s : Builder, Consistent ctx (· = .root) s ∧ s.inProgress = [] ∧
      g = { s.graph with root := g.root } ∧
      Finds ctx s .root g.root ∧ g.root < s.graph.size := by
  have hruns := runs_root ctx
  unfold Runs Ends at hruns
  unfold ofSchemas at h
  split at h
  · rename_i root s heq
    rw [heq] at hruns
    obtain rfl := Except.ok.inj h
    obtain ⟨hadv, hfinds, hknown⟩ := hruns
    exact ⟨s, hadv.consistent, hadv.inProgress, rfl, hfinds, hknown.1⟩
  · cases h

/-- A node of a built graph stands for what some schema describes, or for no fragment. -/
theorem describes_or_loose (h : ofSchemas ctx = .ok g) {i : NodeId} {node : Node}
    (hn : g.get? i = some node) :
    (∃ s id schema, Occurs ctx (· = .root) id schema ∧ Describes ctx s id schema node.kind) ∨
      Loose ctx node.kind := by
  obtain ⟨s, hc, -, hg, -, -⟩ := exists_builder h
  rw [hg] at hn
  rcases hc.sourced i node hn with ⟨id, _, _, hl, -⟩ | ⟨-, -, hloose⟩
  · obtain ⟨-, -, schema, hoccurs, hdescribes⟩ := hc.processed id i hl
    exact .inl ⟨s, id, schema, hoccurs, hdescribes node hn⟩
  · exact .inr hloose

/-- A build fails only through the fault of a schema. -/
theorem isSchemaFault_of_ofSchemas {e : CompileError} (h : ofSchemas ctx = .error e) :
    e.IsSchemaFault := by
  have hruns := runs_root ctx
  unfold Runs Ends at hruns
  unfold ofSchemas at h
  split at h
  · cases h
  · rename_i e' s heq
    rw [heq] at hruns
    obtain rfl := Except.error.inj h
    exact hruns.fault

theorem wellFormed_ofSchemas (h : ofSchemas ctx = .ok g) : g.WellFormed := by
  obtain ⟨s, hc, hin, hg, -, hroot⟩ := exists_builder h
  have hget : g.get? = s.graph.get? := by rw [hg]; rfl
  have hsize : g.size = s.graph.size := by rw [hg]; rfl
  refine ⟨hsize ▸ hroot, fun id node hn c hmem => ?_, fun id hid => ?_, fun id hcycle => ?_,
    fun id node members supers hn hkind x hx => ?_⟩
  · exact hsize ▸ ((hc.fits id node (hget ▸ hn)).children c hmem).1
  · exact hget ▸ hc.exists_node hin (hsize ▸ hid)
  · refine hc.cycles id (hcycle.lift (fun i => i) fun a b hab => ?_)
    obtain ⟨node, hn, hab⟩ := hab
    exact ⟨node, hget ▸ hn, hab⟩
  · obtain ⟨n, ms, ss, hn, hx⟩ := (hc.fits id node (hget ▸ hn)).supers members supers hkind x hx
    exact ⟨n, ms, ss, hget ▸ hn, hx⟩

theorem labelled_ofSchemas (h : ofSchemas ctx = .ok g) : g.Labelled := by
  obtain ⟨s, hc, -, hg, -, -⟩ := exists_builder h
  exact hg ▸ hc.labelled g.root

end TypeGraph

/-! ## A recursive schema -/

namespace Build

variable {s : Builder} {path : List Fragment} {site id : Fragment} {schema : Json}
  {key : Option String} {isRoot : Bool} {done : NodeId → Builder → Prop}
  {failed : CompileError → Builder → Prop}

/-- The visit of a fragment that was not visited before, at the fragment itself. -/
theorem ends_visit_new (hr : ctx.schemas.resolve site = .ok (.fragment site))
    (hl : s.processed.lookup site = none) (hp : site ∉ path) :
    Ends (visit ctx path site schema key isRoot) s done failed ↔
      Ends (build ctx path site schema key isRoot hp) s done failed := by
  rw [visit_of_fragment hr, ends_bind, ends_get, hl, Option.elim_none, dif_neg hp, if_pos rfl,
    Option.elim_some]

/-- The visit of a fragment that was visited before. -/
theorem ends_visit_seen (hr : ctx.schemas.resolve site = .ok (.fragment id)) {node : NodeId}
    (hl : s.processed.lookup id = some node) :
    Ends (visit ctx path site schema key isRoot) s done failed ↔
      done node (if node ∈ s.inProgress then { s with needsName := node :: s.needsName } else s) := by
  rw [visit_of_fragment hr, ends_bind, ends_get, hl, Option.elim_some]
  simp only [markReached, ends_bind, ends_modify, ends_pure]

/-- The visit of a reference to a fragment that was not visited before. -/
theorem ends_visit_target {schema' : Json} (hr : ctx.schemas.resolve site = .ok (.fragment id))
    (hl : s.processed.lookup id = none) (hp : id ∉ path) (hne : id ≠ site)
    (hget : ctx.schemas.get? id = some schema') :
    Ends (visit ctx path site schema key isRoot) s done failed ↔
      Ends (build ctx path id schema' key isRoot hp) s done failed := by
  rw [visit_of_fragment hr, ends_bind, ends_get, hl, Option.elim_none, dif_neg hp, if_neg hne, hget,
    Option.elim_some]

/-- The visit of a reference that is not loaded. -/
theorem ends_visit_external {name : String}
    (hr : ctx.schemas.resolve site = .ok (.external name)) :
    Ends (visit ctx path site schema key isRoot) s done failed ↔
      Ends (external name) s done failed := by
  rw [visit_of_external hr]

theorem ends_fragment (hget : ctx.schemas.get? site = some schema) :
    Ends (fragment ctx site key isRoot) s done failed ↔
      Ends (visit ctx [] site schema key isRoot) s done failed := by
  rw [fragment, hget]

theorem mem_variants (hv : id.variant = none) (schema : Json) :
    id.variant ∈ Schema.variants schema :=
  hv ▸ List.mem_cons_self

/-- The build of a schema that has a hint. -/
theorem ends_build_named {hint : String} {hp : id ∉ path}
    (hh : nameHint ctx id schema key isRoot = some hint) (hv : id.variant = none) :
    Ends (build ctx path id schema key isRoot hp) s done failed ↔
      Ends (parts ctx path id schema (some (Identifier.fresh hint s.usedNames)) key hp
        (mem_variants hv schema))
        { s with
          graph := s.graph.reserve.2
          processed := (id, s.graph.size) :: s.processed
          usedNames := s.usedNames ++ [Identifier.fresh hint s.usedNames]
          inProgress := s.graph.size :: s.inProgress }
        (fun kind t => done s.graph.size { t with
          graph := t.graph.fill s.graph.size {
            kind, key, name := some (Identifier.fresh hint s.usedNames)
            comment := description id schema }
          inProgress := t.inProgress.filter (· != s.graph.size) }) failed := by
  rw [build, dif_pos (mem_variants hv schema)]
  simp only [ends_bind, start, reserve, ends_get, ends_set, ends_pure, ends_modify, hh,
    Option.mapM_some, freshName, ends_map, finishName]
  rfl

/-- The build of a schema that has no hint. -/
theorem ends_build_unnamed {hp : id ∉ path} (hh : nameHint ctx id schema key isRoot = none)
    (hv : id.variant ∈ Schema.variants schema) :
    Ends (build ctx path id schema key isRoot hp) s done failed ↔
      Ends (parts ctx path id schema none key hp hv)
        { s with
          graph := s.graph.reserve.2
          processed := (id, s.graph.size) :: s.processed
          inProgress := s.graph.size :: s.inProgress }
        (fun kind t => Ends (finishName s.graph.size none key) t
          (fun name t => done s.graph.size { t with
            graph := t.graph.fill s.graph.size {
              kind, name, key, comment := description id schema } }) failed) failed := by
  rw [build, dif_pos hv]
  simp only [ends_bind, start, reserve, ends_get, ends_set, ends_pure, ends_modify, hh,
    Option.mapM_none]
  rfl

/-- The kind of a list schema is a list of the node of its items. -/
theorem ends_parts_listOf {item : Json} {name : Option String} {hp : id ∉ path}
    {hv : id.variant ∈ Schema.variants schema} {done : Kind → Builder → Prop}
    (hf : Schema.form ctx.options.unreachableDefinitions id.variant schema = .listOf item) :
    Ends (parts ctx path id schema name key hp hv) s done failed ↔
      Ends (visit ctx (id :: path) (below id ["items"]) item none false) s
        (fun node t => done (.array node) t) failed := by
  rw [parts_eq, hf, partsOf, ends_bind]
  rfl

theorem run_of_ends {α : Type} {x : Build α} {a : α} {t : Builder}
    (h : Ends x s (fun b u => b = a ∧ u = t) fun _ _ => False) : x.run s = (.ok a, t) := by
  unfold Ends at h
  split at h
  · rename_i heq
    rw [heq, h.1, h.2]
  · exact h.elim

theorem run_of_ends_error {α : Type} {x : Build α} {e : CompileError} {t : Builder}
    (h : Ends x s (fun _ _ => False) fun e' u => e' = e ∧ u = t) : x.run s = (.error e, t) := by
  unfold Ends at h
  split at h
  · exact h.elim
  · rename_i heq
    rw [heq, h.1, h.2]

/-- The build of a list whose items refer to the list itself. -/
theorem run_recursive {item : Json} (hroot : ctx.schemas.resolve .root = .ok (.fragment .root))
    (hitems : ctx.schemas.resolve (below .root ["items"]) = .ok (.fragment .root))
    (hget : ctx.schemas.get? .root = some schema)
    (hform : Schema.form ctx.options.unreachableDefinitions none schema = .listOf item)
    (hhint : nameHint ctx .root schema none true = some "List") :
    (fragment ctx .root none true).run {} = (.ok 0, {
      graph := ⟨#[some {
        kind := .array 0, name := some "List", comment := description .root schema }], 0⟩
      processed := [(.root, 0)]
      usedNames := ["List"]
      needsName := [0] }) := by
  refine run_of_ends ((ends_fragment hget).2 ?_)
  rw [ends_visit_new hroot rfl List.not_mem_nil, ends_build_named hhint rfl,
    ends_parts_listOf hform, ends_visit_seen hitems rfl]
  exact ⟨rfl, rfl⟩

/-- The schema of a list whose items are such lists. -/
def recursiveList : Json :=
  .object [("title", .string "List"), ("type", .string "array"),
    ("items", .object [("$ref", .string "#")])]

/-- The schema of recursive lists as the only document, with its reference followed. -/
def recursiveContext : BuildContext where
  schemas := ⟨[⟨none, recursiveList⟩], [(⟨0, "#/items", none⟩, .fragment .root)], 50⟩
  rootName := "Root"
  options := {}

end Build

end Typewright
