import Typewright.Proofs.TypeGraph.Sweep

/-!
# The result of a simplification

`Reduction.compact` renumbers the nodes that the root reaches: the node `i` of the result is the one
at the place `i` of `Reduction.order`, and its children are the places of the nodes that stand for
the old ones.
-/

namespace Typewright

namespace Reduction

variable (w : Reduction)

/-- The number of a node in the result. -/
def number (id : NodeId) : NodeId := w.order.idxOf (w.resolve id)

/-- A node with its children renumbered. -/
def renumber (node : Node) : Node := { node with kind := node.kind.mapChildren w.number }

/-! ## The order -/

theorem resolve_mem_mentioned {id : NodeId} (h : id ∈ w.graph.mentioned) :
    w.resolve id ∈ w.mentioned := by
  have hmem : ∀ {b : NodeId}, b ∈ w.graph.mentioned ∨ b ∈ w.redirects.map (·.2) → b ∈ w.mentioned := by
    intro b hb
    simpa only [mentioned, List.mem_eraseDups, List.mem_append] using hb
  refine w.resolve_induction (hmem (.inl h)) fun a b hl _ => hmem (.inr ?_)
  exact List.mem_map_of_mem hl

theorem nodup_order : w.order.Nodup := Walk.nodup_preorder (Walk.nodup_eraseDups _)

theorem root_mem_order : w.resolve w.graph.root ∈ w.order :=
  Walk.mem_preorder_of_mem List.mem_cons_self (w.resolve_mem_mentioned w.graph.root_mem_mentioned)

theorem child_mem_order {id c : NodeId} {node : Node} (h : id ∈ w.order)
    (hn : w.graph.get? id = some node) (hc : c ∈ node.kind.children) : w.resolve c ∈ w.order := by
  have hrefers : w.graph.Refers id c := by
    rwa [TypeGraph.Refers, w.graph.childrenOf_eq hn]
  refine Walk.next_mem_preorder h ?_ (w.resolve_mem_mentioned (w.graph.mem_mentioned_of_refers hrefers))
  exact List.mem_map_of_mem hrefers

theorem order_induction {P : NodeId → Prop} (hroot : P (w.resolve w.graph.root))
    (hchild : ∀ id node, P id → w.graph.get? id = some node → ∀ c ∈ node.kind.children,
      P (w.resolve c)) : ∀ id ∈ w.order, P id := by
  refine Walk.preorder_induction (by simpa using hroot) fun a ha b hb => ?_
  obtain ⟨c, hc, rfl⟩ := List.mem_map.1 hb
  cases hn : w.graph.get? a with
  | none => simp [TypeGraph.childrenOf, hn] at hc
  | some node => exact hchild a node ha hn c (by rwa [w.graph.childrenOf_eq hn] at hc)

/-! ## Slots of the result -/

theorem size_compact : w.compact.size = w.order.length := by
  simp [compact, TypeGraph.size]

theorem root_compact : w.compact.root = w.number w.graph.root := rfl

/-- A node of the result is the one at its place in the order, renumbered. -/
theorem get?_compact (i : Nat) :
    w.compact.get? i = (w.order[i]?).bind fun id => (w.graph.get? id).map w.renumber := by
  simp only [compact, TypeGraph.get?, List.getElem?_toArray, List.getElem?_map]
  cases w.order[i]? with
  | none => rfl
  | some id => rfl

theorem getElem?_order_number {id : NodeId} (h : w.resolve id ∈ w.order) :
    w.order[w.number id]? = some (w.resolve id) :=
  List.getElem?_idxOf h

theorem number_lt {id : NodeId} (h : w.resolve id ∈ w.order) : w.number id < w.compact.size := by
  rw [size_compact]
  exact List.idxOf_lt_length_of_mem h

/-- What a node of the result is made of. -/
theorem get?_compact_eq_some {i : Nat} {node : Node} (h : w.compact.get? i = some node) :
    ∃ id old, w.order[i]? = some id ∧ w.graph.get? id = some old ∧ node = w.renumber old := by
  rw [w.get?_compact, Option.bind_eq_some_iff] at h
  obtain ⟨id, hid, h⟩ := h
  obtain ⟨old, hold, rfl⟩ := Option.map_eq_some_iff.1 h
  exact ⟨id, old, hid, hold, rfl⟩

theorem get?_compact_number {id : NodeId} (h : w.resolve id ∈ w.order) :
    w.compact.get? (w.number id) = (w.graph.get? (w.resolve id)).map w.renumber := by
  rw [w.get?_compact, w.getElem?_order_number h]
  rfl

end Reduction

namespace Stage

variable {s : Stage}

/-- The nodes of the result are live. -/
theorem Closed.order (h : s.Closed) : ∀ id ∈ s.work.order, s.live id :=
  s.work.order_induction (h.resolve h.root) fun _ _ hid hn _ hc =>
    h.resolve (h.child_of_get hid hn hc)

/-- The stage in which a simplification starts, where the reachable nodes are live. -/
def start (g : TypeGraph) : Stage := { work := ⟨g, []⟩, live := g.Reaches }

theorem closed_start (g : TypeGraph) : (start g).Closed where
  root := .refl
  child _ h _ hc := h.tail hc
  lead _ _ h := absurd h List.not_mem_nil
  rest _ _ h := absurd h List.not_mem_nil

end Stage

/-- Where the root leads, children are slots of the graph. -/
def TypeGraph.Inside (g : TypeGraph) : Prop := ∀ id, g.Reaches id → ∀ c ∈ g.childrenOf id, c < g.size

theorem TypeGraph.Inside.bounded_start {g : TypeGraph} (h : g.Inside) (hroot : g.root < g.size) :
    (Stage.start g).Bounded := by
  intro id hid
  cases hid with
  | refl => exact hroot
  | tail hab hbc => exact h _ hab _ hbc

theorem Stage.oriented_start (g : TypeGraph) : (start g).Oriented :=
  ⟨fun _ _ hl => absurd hl List.not_mem_nil, fun _ _ hl => absurd hl List.not_mem_nil⟩

/-- What no sweep changes is settled. -/
theorem Reduction.settle_eq_self {keep : Bool} {w : Reduction} (h : w.sweep keep = w) (limit : Nat) :
    settle keep limit w = w := by
  cases limit with
  | zero => exact h
  | succ limit => simp only [settle, h, and_self, if_true]

/-- A root without node leads nowhere. -/
theorem Reduction.get?_of_unbuilt {g : TypeGraph} (h : g.get? g.root = none) :
    ∀ id ∈ postorder ⟨g, []⟩, g.get? id = none := by
  refine Walk.postorder_induction (P := fun id => g.get? id = none) ?_ fun a ha b hb => ?_
  · intro step hstep
    rw [List.mem_singleton.1 hstep]
    exact h
  · obtain ⟨c, hc, -⟩ := List.mem_map.1 hb
    simp [TypeGraph.childrenOf, ha] at hc

/-- Slots without node are left as they are. -/
theorem Reduction.foldl_of_unbuilt (keep : Bool) {w : Reduction} {ids : List NodeId}
    (h : ∀ id ∈ ids, w.graph.get? id = none) : ids.foldl (reduce keep) w = w := by
  induction ids with
  | nil => rfl
  | cons id rest ih =>
      have hid : reduce keep w id = w := by simp [reduce, h id List.mem_cons_self]
      rw [List.foldl_cons, hid]
      exact ih fun i hi => h i (List.mem_cons_of_mem _ hi)

/-- A graph without a node at its root is left as it is. -/
theorem Reduction.sweep_of_unbuilt (keep : Bool) {g : TypeGraph} (h : g.get? g.root = none) :
    sweep keep ⟨g, []⟩ = ⟨g, []⟩ :=
  foldl_of_unbuilt keep (get?_of_unbuilt h)

/-- A simplified graph is the compact form of what edits make of the graph. -/
theorem TypeGraph.simplify_eq (keep : Bool) {g : TypeGraph} (hg : g.Inside) :
    ∃ t, Edits keep (Stage.start g) t ∧ t.Closed ∧ g.simplify keep = t.work.compact := by
  by_cases hroot : g.root < g.size
  · obtain ⟨t, ht⟩ := Stage.edits_settle keep g.size (Stage.closed_start g) (hg.bounded_start hroot)
      (Stage.oriented_start g)
    exact ⟨t, ht.edits, (Stage.closed_start g).edits ht.edits, by rw [ht.work]; rfl⟩
  · have hnone := g.get?_eq_none_of_size_le (Nat.not_lt.1 hroot)
    refine ⟨Stage.start g, .refl, Stage.closed_start g, ?_⟩
    unfold simplify
    rw [Reduction.settle_eq_self (Reduction.sweep_of_unbuilt keep hnone)]
    rfl

end Typewright
