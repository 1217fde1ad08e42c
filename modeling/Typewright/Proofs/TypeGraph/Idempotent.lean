import Mathlib
import Typewright.Proofs.TypeGraph.Equivalence
import Typewright.Proofs.TypeGraph.Numbering
import Typewright.Proofs.TypeGraph.Stable

/-!
# Simplifying a simplified graph

The result of a simplification is its own compact form, and a step that changes nothing changes
nothing in the result. So where the sweeps stop because nothing changes any more, simplifying again
gives the same graph, numbers included (`simplify_simplify`). Where they stop at their limit it need
not (`exists_simplify_simplify_ne`).
-/

namespace Typewright

namespace Reduction

variable {keep : Bool} {w : Reduction}

/-! ## The order of the result -/

/-- The result is numbered in its own order. -/
theorem order_result : w.result.order = List.range w.order.length := by
  rw [result, order_of_graph, reachable_compact, size_compact]

theorem number_result {i : NodeId} (hi : i < w.order.length) :
    w.result.number i = i := by
  have hget := List.getElem_idxOf (List.idxOf_lt_length_of_mem (List.mem_range.2 hi))
  rw [List.getElem_range] at hget
  rw [number, order_result]
  exact hget

/-- The result is its own compact form. -/
theorem compact_result : w.result.compact = w.compact := by
  have hroot : w.result.number w.compact.root = w.compact.root :=
    number_result (List.idxOf_lt_length_of_mem w.root_mem_order)
  have hnodes : w.result.order.map (fun id => (w.compact.get? id).map w.result.renumber) =
      w.order.map fun id => (w.graph.get? id).map w.renumber := by
    refine List.ext_getElem (by simp [order_result]) fun i hi hi' => ?_
    rw [List.length_map] at hi'
    simp only [List.getElem_map, order_result, List.getElem_range]
    rw [w.get?_compact, List.getElem?_eq_getElem hi', Option.bind_some, Option.map_map]
    refine Option.map_congr fun node hnode => ?_
    rw [Function.comp_apply, renumber]
    refine congrArg (fun kind => { w.renumber node with kind := kind }) ?_
    refine Kind.mapChildren_eq_self fun c hc => ?_
    rw [renumber, Kind.children_mapChildren] at hc
    obtain ⟨d, hd, rfl⟩ := List.mem_map.1 hc
    refine number_result (List.idxOf_lt_length_of_mem ?_)
    exact w.child_mem_order (w.order.getElem_mem hi') hnode hd
  show TypeGraph.mk _ _ = TypeGraph.mk _ _
  rw [TypeGraph.mk.injEq]
  exact ⟨congrArg List.toArray hnodes, hroot⟩

/-- If no step changes anything then no sweep changes the result. -/
theorem Clear.settled_result (h : w.Clear) (hself : ∀ i ∈ w.order, w.reduce keep i = w) :
    w.result.Settled keep := by
  refine settled_of_reduce_eq_self fun i hi => ?_
  rw [order_result, List.mem_range] at hi
  have hmem := List.getElem_mem hi
  have hnumber : w.number w.order[i] = i := by
    rw [number, h.resolve_of_mem hmem, w.nodup_order.idxOf_getElem]
  rw [← hnumber]
  exact h.reduce_result hself hmem

/-- Where a sweep changes nothing, the result is its own. -/
theorem Clear.simplify_compact (h : w.Clear) (hs : w.Settled keep) :
    w.compact.simplify keep = w.compact := by
  have hself := reduce_eq_self_of_settled (free_of_mem_postorder h.free) hs
  have hsettle : settle keep w.compact.size ⟨w.compact, []⟩ = w.result :=
    settle_eq_self (h.settled_result hself) _
  unfold TypeGraph.simplify
  rw [hsettle, compact_result]

end Reduction

/-! ## Texts without mentions stay so -/

namespace Stage

variable {keep : Bool} {s t : Stage}

/-- No text of a live node looks like the mention of a node. -/
def Unmarked (s : Stage) : Prop :=
  ∀ id node, s.live id → s.work.graph.get? id = some node → node.Unmarked

theorem Relaxed.key_eq {m m' : InterfaceMember} (h : s.Relaxed m m') : m'.key = m.key := by
  cases h <;> rfl

theorem Unmarked.rewrite (h : s.Unmarked) (hc : s.Closed) {id : NodeId} {node node' : Node}
    (live : s.live id) (get : s.work.graph.get? id = some node) (hr : Rewrite keep s id node node') :
    node'.Unmarked := by
  have hnode := h id node live get
  have hname : ∀ t ∈ node.name.toList, unmarked t.toList = true := fun t ht =>
    hnode t (List.mem_append_right _ ht)
  cases hr with
  | resolve =>
      intro t ht
      rw [Kind.texts_mapChildren] at ht
      exact hnode t ht
  | combine kind any =>
      intro t ht
      rw [Kind.texts_combination] at ht
      exact hname t ht
  | absorb => exact hname
  | @copy only child isUnion children kind single any ne member unnamed =>
      have hlive : s.live only :=
        hc.members (fun d hd => hc.child_of_get live get (by rwa [kind, Kind.children_combination]))
          (single ▸ List.mem_singleton_self only)
      intro t ht
      rcases List.mem_append.1 ht with ht | ht
      · exact h only child hlive member t (List.mem_append_left _ ht)
      · exact hname t ht
  | @interface members members' supers kind relaxed =>
      have hkeys : (Reduction.kept keep members).map (fun m => debugQuote m.key) =
          members'.map fun m => debugQuote m.key :=
        Interpretation.map_eq_of_forall₂ (relaxed.imp fun _ _ hm => by rw [hm.key_eq])
      intro t ht
      rcases List.mem_append.1 ht with ht | ht
      · have ht : t ∈ members'.map fun m => debugQuote m.key := ht
        rw [← hkeys] at ht
        obtain ⟨m, hm, rfl⟩ := List.mem_map.1 ht
        refine hnode _ (List.mem_append_left _ ?_)
        rw [kind]
        exact List.mem_map_of_mem (kept_subset hm)
      · exact hname t ht

theorem Unmarked.edit (h : s.Unmarked) (hc : s.Closed) (he : Edit keep s t) : t.Unmarked := by
  intro i node' hlive hget
  rcases he.of_get? hget with hold | ⟨node, hl, hn, hr⟩ | ⟨-, _, _, _, -, -, -, -, hname, kind⟩
  · rcases he.of_live hlive with hl | ⟨rfl, -⟩
    · exact h i node' hl hold
    · exact absurd (s.work.graph.lt_size_of_get? hold) (Nat.lt_irrefl _)
  · exact h.rewrite hc hl hn hr
  · intro t ht
    rw [kind, hname] at ht
    cases ht

theorem Unmarked.edits (h : s.Unmarked) (hc : s.Closed) (he : Edits keep s t) : t.Unmarked := by
  induction he with
  | refl => exact h
  | tail hst he ih => exact ih.edit (hc.edits hst) he

/-- What edits make of a graph can be renumbered. -/
theorem Closed.clear (hc : s.Closed) (hb : s.Bounded) (ho : s.Oriented) (hu : s.Unmarked) :
    s.work.Clear where
  free := ho.free_resolve
  bounded id hid := hb id (hc.order id hid)
  unmarked id node hid := hu id node (hc.order id hid)

end Stage

namespace TypeGraph

/-- No text of a node that the root leads to looks like the mention of a node. -/
def Unmarked (g : TypeGraph) : Prop := (Stage.start g).Unmarked

/-- A root that is not built is the whole result. -/
theorem compact_of_unbuilt {g : TypeGraph} (h : g.get? g.root = none) :
    Reduction.compact ⟨g, []⟩ = { nodes := #[none], root := 0 } := by
  have horder : Reduction.order ⟨g, []⟩ = [g.root] := by
    have hmem : g.root ∈ Reduction.mentioned ⟨g, []⟩ :=
      Reduction.resolve_mem_mentioned ⟨g, []⟩ g.root_mem_mentioned
    have hnext : Reduction.childrenOf ⟨g, []⟩ g.root = [] := by
      simp [Reduction.childrenOf, childrenOf, h]
    have hresolve : Reduction.resolve ⟨g, []⟩ g.root = g.root := rfl
    rw [Reduction.order, hresolve, Walk.preorder, dif_pos hmem, hnext, List.nil_append, Walk.preorder]
  unfold Reduction.compact
  rw [horder]
  simp [h]

theorem simplify_of_unbuilt {g : TypeGraph} (keep : Bool) (h : g.get? g.root = none) :
    g.simplify keep = { nodes := #[none], root := 0 } := by
  rw [simplify, Reduction.settle_eq_self (Reduction.sweep_of_unbuilt keep h), compact_of_unbuilt h]

/-- What the sweeps make of a graph can be renumbered. -/
theorem clear_settle {g : TypeGraph} (hg : g.Inside) (hu : g.Unmarked) (hroot : g.root < g.size)
    (keep : Bool) : (Reduction.settle keep g.size ⟨g, []⟩).Clear := by
  have hc := Stage.closed_start g
  have hb := hg.bounded_start hroot
  have ho := Stage.oriented_start g
  obtain ⟨t, ht⟩ := Stage.edits_settle keep g.size hc hb ho
  have hclear : t.work.Clear :=
    (hc.edits ht.edits).clear (hb.edits ht.edits) (ho.edits ht.edits) (hu.edits hc ht.edits)
  rwa [ht.work] at hclear

/-- Where the sweeps stop because nothing changes any more, simplifying again changes nothing. -/
theorem simplify_simplify {g : TypeGraph} {keep : Bool} (hg : g.Inside) (hu : g.Unmarked)
    (hs : (Reduction.settle keep g.size ⟨g, []⟩).Settled keep) :
    (g.simplify keep).simplify keep = g.simplify keep := by
  by_cases hroot : g.root < g.size
  · have hclear := clear_settle hg hu hroot keep
    exact hclear.simplify_compact hs
  · have hnone := g.get?_eq_none_of_size_le (Nat.not_lt.1 hroot)
    rw [simplify_of_unbuilt keep hnone]
    exact simplify_of_unbuilt keep rfl

theorem simplify_simplify_chain :
    chain.Inside ∧ chain.Unmarked ∧
      (Reduction.settle false chain.size ⟨chain, []⟩).Settled false ∧
      (chain.simplify false).simplify false = chain.simplify false := by
  have hu : chain.Unmarked := by
    intro id node _ hn t ht
    rcases get?_chain hn with ⟨-, hkind, hname⟩ | ⟨-, hkind, hname⟩ | ⟨-, hkind, hname⟩ |
      ⟨-, hkind, hname⟩ <;> rw [hkind, hname] at ht <;> revert t <;> decide +kernel
  have hs : (Reduction.settle false chain.size ⟨chain, []⟩).Settled false := by
    unfold Reduction.Settled
    cbv
  exact ⟨regular_chain.inside, hu, hs, simplify_simplify regular_chain.inside hu hs⟩

/-- Two unions, `Left` and `Right`, that take each other's members in turn. -/
def swinging : TypeGraph where
  nodes := #[
    some { kind := .union [0, 1] },
    some { kind := .union [2, 0], name := some "Left" },
    some { kind := .union [2, 0, 0], name := some "Right" }]

/-- What the sweeps make of `swinging` until they stop at their limit. -/
def swung : TypeGraph where
  nodes := #[
    some { kind := .union [0, 1] },
    some { kind := .union [2, 0, 1], name := some "Left" },
    some { kind := .union [2, 0, 1], name := some "Right" }]

theorem inside_swinging : swinging.Inside := by
  intro id _ c hc
  have hall : ∀ i < 3, ∀ c ∈ swinging.childrenOf i, c < 3 := by decide
  by_cases hlt : id < 3
  · exact hall id hlt c hc
  · rw [childrenOf, swinging.get?_eq_none_of_size_le (Nat.not_lt.1 hlt)] at hc
    cases hc

theorem simplify_swinging : swinging.simplify false = swung := by cbv

theorem simplify_swung : (swung.simplify false).get? 2 =
    some { kind := .union [2, 0], name := some "Right" } := by cbv

theorem exists_simplify_simplify_ne :
    ¬∀ g keep, Inside g → (g.simplify keep).simplify keep = g.simplify keep := by
  intro h
  have heq := congrArg (TypeGraph.get? · 2) (h swinging false inside_swinging)
  rw [simplify_swinging, simplify_swung] at heq
  revert heq
  decide

end TypeGraph

end Typewright
