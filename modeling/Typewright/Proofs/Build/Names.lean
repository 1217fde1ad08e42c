import Typewright.Proofs.Build.Graph
import Typewright.Proofs.Declaration.Names

/-!
# Names of a compile unit

One builder may serve several requests, and one that fails leaves its work to the next. Each request
keeps the invariant of a build, so a run of requests gives every named node a name of its own, apart
from the names that were reserved before (`unique_serve`).
-/

namespace Typewright

namespace Build

variable {ctx : BuildContext} {asked : Request → Prop} {s t : Builder}

/-! ## Requests -/

/-- What a request leaves behind, whether it succeeds or fails. -/
def request (ctx : BuildContext) (s : Builder) (r : Request) : Builder :=
  ((fragment ctx r.site r.key r.isRoot).run s).2

/-- What a series of requests leaves behind. -/
def serve (ctx : BuildContext) (s : Builder) (requests : List Request) : Builder :=
  requests.foldl (request ctx) s

/-- A request keeps the invariant and what was built before, also when it fails. -/
theorem keeps_request (h : Consistent ctx asked s) (r : Request) (hr : asked r) :
    Consistent ctx asked (request ctx s r) ∧ Grows s (request ctx s r) := by
  have hruns := runs_fragment r s h hr
  unfold Runs Ends at hruns
  unfold request
  split at hruns
  · rename_i heq
    rw [heq]
    exact ⟨hruns.1.consistent, hruns.1.grows⟩
  · rename_i heq
    rw [heq]
    exact ⟨hruns.consistent, hruns.grows⟩

theorem keeps_serve (h : Consistent ctx asked s) {requests : List Request}
    (hr : ∀ r ∈ requests, asked r) :
    Consistent ctx asked (serve ctx s requests) ∧ Grows s (serve ctx s requests) := by
  induction requests generalizing s with
  | nil => exact ⟨h, .refl s⟩
  | cons r rest ih =>
      obtain ⟨hc, hg⟩ := keeps_request h r (hr r List.mem_cons_self)
      obtain ⟨hc', hg'⟩ := ih hc fun r' hr' => hr r' (List.mem_cons_of_mem _ hr')
      exact ⟨hc', hg.trans hg'⟩

/-! ## Names -/

/-- The names of the built nodes are identifiers in use, distinct, and none of those that were
reserved. -/
structure Unique (reserved : List String) (s : Builder) : Prop where
  distinct : ∀ i j node node' name, s.graph.get? i = some node → s.graph.get? j = some node' →
    node.name = some name → node'.name = some name → i = j
  apart : ∀ i node name, s.graph.get? i = some node → node.name = some name → name ∉ reserved
  used : ∀ i node name, s.graph.get? i = some node → node.name = some name → name ∈ s.usedNames
  identifier : ∀ i node name, s.graph.get? i = some node → node.name = some name →
    Identifier.isBare name.toList = true ∧ Identifier.sanitize name = name

/-- What grows out of a state without nodes has names apart from those in use before. -/
theorem Consistent.unique (h : Consistent ctx asked t) (hg : Grows s t) (hs : s.graph.size = 0) :
    Unique s.usedNames t where
  distinct := h.distinct
  apart i node name hn hname := hg.names i node name (hs ▸ Nat.zero_le i) hn hname
  used i node name hn hname := (h.names i node name hn hname).2
  identifier i node name hn hname := by
    have hclean := (h.names i node name hn hname).1
    exact ⟨hclean.bare, Identifier.sanitize_of_clean hclean⟩

/-- The names that the root of a graph reaches lose nothing of their distinctness when the graph is
simplified and declared. -/
structure NamesKept (keep : Bool) (g : TypeGraph) : Prop where
  /-- Simplification leaves some of the reachable names, each as often as before at most. -/
  fewer : ((g.simplify keep).reachableNames).Subperm g.reachableNames
  before : g.reachableNames.Nodup
  after : (g.simplify keep).reachableNames.Nodup
  /-- A name is declared as it is. -/
  texts : (g.simplify keep).reachableNames.map Identifier.sanitize =
    (g.simplify keep).reachableNames
  declared : ∀ options, (Pass.aliases.names (g.simplify keep) options ++
    Pass.interfaces.names (g.simplify keep) options ++
    Pass.enums.names (g.simplify keep) options).Nodup

theorem namesKept {g : TypeGraph} (hi : g.Inside) (hl : g.Labelled) (keep : Bool) :
    NamesKept keep g where
  fewer := (Declaration.nodup_reachableNames (hl.simplify hi keep)).subperm
    (TypeGraph.reachableNames_simplify_subset hi keep)
  before := Declaration.nodup_reachableNames hl
  after := Declaration.nodup_reachableNames (hl.simplify hi keep)
  texts := by
    refine (List.map_congr_left fun name hmem => ?_).trans (List.map_id _)
    obtain ⟨id, node, -, hn, hname⟩ := TypeGraph.mem_reachableNames.1 hmem
    exact Identifier.sanitize_of_clean ((hl.simplify hi keep).clean id node name hn hname)
  declared := Declaration.nodup_declared (hl.simplify hi keep)

/-- Names are unique in a compile unit: whatever requests a builder serves, also after failed ones,
the built nodes have names of their own, apart from those that were reserved, and whatever node
becomes the root, simplification and declaration keep its names distinct. -/
theorem unique_serve (ctx : BuildContext) (reserved : List String) (requests : List Request) :
    Unique reserved (serve ctx { usedNames := reserved } requests) ∧
    ∀ (root : NodeId) (keep : Bool), NamesKept keep
      { (serve ctx { usedNames := reserved } requests).graph with root } := by
  obtain ⟨hc, hg⟩ := keeps_serve (consistent_empty ctx (fun _ => True) reserved)
    fun r (_ : r ∈ requests) => trivial
  exact ⟨hc.unique hg rfl, fun root keep => namesKept (hc.inside root) (hc.labelled root) keep⟩

end Build

end Typewright
