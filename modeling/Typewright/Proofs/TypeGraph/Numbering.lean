import Typewright.Proofs.TypeGraph.Compact

/-!
# The numbers of a simplified graph

The result of a simplification holds the nodes that its root reaches, each once, and its root is the
node 0. They are numbered in the order in which a walk from the root meets them
(`reachable_compact`).
-/

namespace Typewright

namespace Reduction

variable (w : Reduction)

/-- A slot of the result is mentioned in it. -/
theorem mem_mentioned_compact {i : NodeId} (hi : i < w.order.length) : i ∈ w.compact.mentioned := by
  unfold TypeGraph.mentioned
  rw [List.mem_eraseDups, List.cons_append, List.mem_cons, List.mem_append, List.mem_range,
    size_compact]
  exact .inr (.inl hi)

/-- The children of a node of the result are the places of the nodes that stand for the old ones. -/
theorem childrenOf_compact {id : NodeId} (h : id ∈ w.order) :
    w.compact.childrenOf (w.order.idxOf id) = (w.childrenOf id).map w.order.idxOf := by
  have hget : w.compact.get? (w.order.idxOf id) = (w.graph.get? id).map w.renumber := by
    rw [w.get?_compact, List.getElem?_idxOf h]
    rfl
  rw [childrenOf, List.map_map]
  cases hn : w.graph.get? id with
  | none =>
      rw [hn] at hget
      simp [TypeGraph.childrenOf, hn, hget]
  | some node =>
      rw [hn] at hget
      rw [w.compact.childrenOf_eq hget, w.graph.childrenOf_eq hn, renumber, Kind.children_mapChildren]
      rfl

/-- The result is numbered in its own order. -/
theorem reachable_compact : w.compact.reachable = List.range w.compact.size := by
  have hmap : w.compact.reachable = w.order.map w.order.idxOf := by
    refine Walk.preorder_map (P := (· ∈ w.order)) (fun a ha b hb => ?_)
      (fun a ha => w.childrenOf_compact ha) (fun a b ha _ heq => (List.idxOf_inj ha).1 heq)
      [w.resolve w.graph.root] ?_ (Walk.nodup_eraseDups _) (Walk.nodup_eraseDups _)
      fun a ha => ?_
    · obtain ⟨c, hc, rfl⟩ := List.mem_map.1 hb
      exact Walk.next_mem_preorder ha hb
        (w.resolve_mem_mentioned (w.graph.mem_mentioned_of_refers hc))
    · rw [List.forall_mem_singleton]
      exact w.root_mem_order
    · exact iff_of_true (w.mem_mentioned_compact (List.idxOf_lt_length_of_mem ha))
        (Walk.mem_fresh_of_mem_preorder ha)
  rw [hmap, size_compact]
  refine List.ext_getElem (by simp) fun i hi hi' => ?_
  rw [List.getElem_map, List.getElem_range]
  exact w.nodup_order.idxOf_getElem i _

/-- Where no node stands for another one, the nodes of the result are those that are reached. -/
theorem order_of_graph (g : TypeGraph) : order ⟨g, []⟩ = g.reachable := by
  have hchildren : ∀ a, True → childrenOf ⟨g, []⟩ (id a) = (g.childrenOf a).map id := fun _ _ => rfl
  have hmentioned : ∀ a, True → (id a ∈ mentioned ⟨g, []⟩ ↔ a ∈ g.mentioned) := fun a _ => by
    simp [mentioned]
  have hmap := Walk.preorder_map (fun _ _ _ _ => trivial) hchildren (fun _ _ _ _ heq => heq) [g.root]
    (fun _ _ => trivial) g.nodup_mentioned (Walk.nodup_eraseDups _) hmentioned
  rwa [List.map_id, List.map_id] at hmap

end Reduction

end Typewright
