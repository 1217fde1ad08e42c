import Typewright.Proofs.TypeGraph.Numbering

/-!
# The result as a recursive copy

The result of a simplification can be made by a recursive copy: a node that is met for the first time
takes a slot, its children are copied in order, and then the slot is filled. A node that was met
before, while it is being copied included, is not copied again. Such a copy is the walk that numbers
the nodes (`copy_eq_compact`): what the recursion still has to do after a node is what the walk has
pending.
-/

namespace Typewright

namespace Kind

/-- A kind that refers to the nodes of a list, in order. -/
def withChildren : Kind → List NodeId → Kind
  | .array element, ids => .array (ids.headD element)
  | .enum members, ids => .enum (List.zipWith (fun m id => { m with node := id }) members ids)
  | .interface members _, ids =>
    .interface (List.zipWith (fun m id => { m with node := id }) members (ids.take members.length))
      (ids.drop members.length)
  | .intersection _, ids => .intersection ids
  | .tuple _, ids => .tuple ids
  | .union _, ids => .union ids
  | kind, _ => kind

end Kind

/-- A copy under construction, with the number of the copy of each node met so far. -/
structure Copy where
  graph : TypeGraph := {}
  numbers : List (NodeId × NodeId) := []

namespace Copy

/-- Takes a slot for the copy of a node. -/
def reserve (id : NodeId) (c : Copy) : NodeId × Copy :=
  (c.graph.size, { graph := c.graph.reserve.2, numbers := (id, c.graph.size) :: c.numbers })

/-- Puts a node into a slot and gives back its number. -/
def fill (number : NodeId) (node : Node) (c : Copy) : NodeId × Copy :=
  (number, { c with graph := c.graph.fill number node })

end Copy

namespace Reduction

variable (w : Reduction)

/-- The number of the copy of a node. A node that was not met before is copied with all it leads to,
down to the given depth. -/
def copyInto : Nat → NodeId → StateM Copy NodeId
  | 0, _ => pure 0
  | depth + 1, id => do
    let id := w.resolve id
    match (← get).numbers.lookup id with
    | some number => return number
    | none =>
      let number ← modifyGet (Copy.reserve id)
      match w.graph.get? id with
      | none => return number
      | some node =>
        let children ← node.kind.children.mapM (copyInto depth)
        modifyGet (Copy.fill number { node with kind := node.kind.withChildren children })

/-- A copy of what the root leads to. -/
def copy : TypeGraph :=
  let (root, c) := (w.copyInto (w.mentioned.length + 1) w.graph.root).run {}
  { c.graph with root }

/-! ## The walk that a copy makes -/

/-- Where a walk is that has met some nodes and has others pending. -/
structure Ahead (met fresh pending : List NodeId) : Prop where
  order : w.order = met ++ Walk.preorder w.childrenOf fresh pending
  cover : ∀ a ∈ w.mentioned, a ∈ met ∨ a ∈ fresh

/-- What a copy holds once some nodes are met: each slot is that of the result, apart from those of
the nodes still open. -/
structure Holds (met opened : List NodeId) (c : Copy) : Prop where
  nodes : c.graph.nodes =
    (met.map fun id => if id ∈ opened then none else (w.graph.get? id).map w.renumber).toArray
  numbers : ∀ id, c.numbers.lookup id = if id ∈ met then some (w.order.idxOf id) else none
  opened : ∀ id ∈ opened, id ∈ met

variable {w} {met opened fresh rest : List NodeId} {a : NodeId} {c : Copy}

/-- A node that was met before is passed over. -/
theorem Ahead.pass (h : w.Ahead met fresh (a :: rest)) (ha : a ∈ met) : w.Ahead met fresh rest := by
  have hfresh : a ∉ fresh := by
    intro hmem
    have hnodup := w.nodup_order
    rw [h.order, Walk.preorder, dif_pos hmem] at hnodup
    exact (List.nodup_append.1 hnodup).2.2 a ha a List.mem_cons_self rfl
  refine ⟨?_, h.cover⟩
  rw [h.order, Walk.preorder, dif_neg hfresh]

theorem Holds.size (h : w.Holds met opened c) : c.graph.size = met.length := by
  rw [TypeGraph.size, h.nodes, List.size_toArray, List.length_map]

/-- A slot is taken for a node that is met for the first time. -/
theorem Holds.reserve (h : w.Holds met opened c) (ha : a ∉ met)
    (hnum : w.order.idxOf a = met.length) :
    w.Holds (met ++ [a]) (a :: opened) (Copy.reserve a c).2 where
  nodes := by
    have hold : met.map (fun id => if id ∈ a :: opened then none else (w.graph.get? id).map w.renumber) =
        met.map fun id => if id ∈ opened then none else (w.graph.get? id).map w.renumber :=
      List.map_congr_left fun id hid => by
        have hne : id ≠ a := fun heq => ha (heq ▸ hid)
        simp only [List.mem_cons, hne, false_or]
    rw [Copy.reserve, TypeGraph.reserve, h.nodes, List.map_append, hold, List.map_singleton,
      if_pos List.mem_cons_self, List.push_toArray]
  numbers id := by
    rw [Copy.reserve, List.lookup_cons]
    by_cases hid : id = a
    · simp [hid, h.size, hnum]
    · have hne : (id == a) = false := by simpa using hid
      rw [hne]
      simp [h.numbers, hid]
  opened id hid := by
    rcases List.mem_cons.1 hid with rfl | hid
    · exact List.mem_append_right _ List.mem_cons_self
    · exact List.mem_append_left _ (h.opened id hid)

/-- A slot that was never built is closed as it is. -/
theorem Holds.close (h : w.Holds met (a :: opened) c) (hn : w.graph.get? a = none) :
    w.Holds met opened c where
  nodes := by
    rw [h.nodes]
    refine congrArg _ (List.map_congr_left fun id _ => ?_)
    by_cases hid : id = a
    · simp [hid, hn]
    · simp only [List.mem_cons, hid, false_or]
  numbers := h.numbers
  opened id hid := h.opened id (List.mem_cons_of_mem _ hid)

/-- Once its children are copied, the slot of a node is filled. -/
theorem Holds.fill (h : w.Holds met (a :: opened) c) (ha : a ∉ opened) {pending : List NodeId}
    (hahead : w.Ahead met fresh pending) {node : Node} (hn : w.graph.get? a = some node) :
    w.Holds met opened (Copy.fill (w.order.idxOf a) (w.renumber node) c).2 where
  nodes := by
    have hmem := h.opened a List.mem_cons_self
    have hnum : w.order.idxOf a = met.idxOf a := by
      rw [hahead.order, List.idxOf_append_of_mem hmem]
    have hnodup : met.Nodup := by
      have hnodup := w.nodup_order
      rw [hahead.order] at hnodup
      exact (List.nodup_append.1 hnodup).1
    rw [Copy.fill, TypeGraph.fill, h.nodes, hnum, List.setIfInBounds_toArray]
    refine congrArg _ (List.ext_getElem (by simp) fun i hi hi' => ?_)
    rw [List.length_map] at hi'
    rw [List.getElem_set, List.getElem_map, List.getElem_map]
    by_cases hia : met[i] = a
    · rw [if_pos (by rw [← hia, hnodup.idxOf_getElem]), hia, if_neg ha, hn, Option.map_some]
    · have hne : met.idxOf a ≠ i := fun heq => hia (by simp [← heq])
      simp only [if_neg hne, List.mem_cons, hia, false_or]
  numbers := h.numbers
  opened id hid := h.opened id (List.mem_cons_of_mem _ hid)

/-! ## Copies -/

/-- A copy of one node that makes the walk from it, where the walk has `rest` pending. -/
def CopiesInto (w : Reduction) (copy : NodeId → StateM Copy NodeId) (room : Nat) : Prop :=
  ∀ {id met opened fresh rest c}, w.resolve id ∈ w.mentioned → fresh.length < room →
    w.Holds met opened c → w.Ahead met fresh (w.resolve id :: rest) →
      ∃ met' fresh' c', (copy id).run c = (w.number id, c') ∧ fresh'.length ≤ fresh.length ∧
        w.Holds met' opened c' ∧ w.Ahead met' fresh' rest

/-- Nodes that are copied one after the other make the walk from all of them. -/
theorem CopiesInto.mapM {copy : NodeId → StateM Copy NodeId} {room : Nat} (hcopy : w.CopiesInto copy room)
    {ids : List NodeId} (hids : ∀ id ∈ ids, w.resolve id ∈ w.mentioned) (hroom : fresh.length < room)
    (hc : w.Holds met opened c) (ha : w.Ahead met fresh (ids.map w.resolve ++ rest)) :
    ∃ met' fresh' c', (ids.mapM copy).run c = (ids.map w.number, c') ∧
      fresh'.length ≤ fresh.length ∧ w.Holds met' opened c' ∧ w.Ahead met' fresh' rest := by
  induction ids generalizing met fresh c with
  | nil => exact ⟨met, fresh, c, rfl, Nat.le_refl _, hc, ha⟩
  | cons id ids ih =>
      obtain ⟨met₁, fresh₁, c₁, hrun₁, hle₁, hc₁, ha₁⟩ :=
        hcopy (hids id List.mem_cons_self) hroom hc ha
      obtain ⟨met₂, fresh₂, c₂, hrun₂, hle₂, hc₂, ha₂⟩ :=
        ih (fun id hid => hids id (List.mem_cons_of_mem _ hid)) (Nat.lt_of_le_of_lt hle₁ hroom) hc₁ ha₁
      refine ⟨met₂, fresh₂, c₂, ?_, Nat.le_trans hle₂ hle₁, hc₂, ha₂⟩
      rw [List.mapM_cons, StateT.run_bind, hrun₁]
      show ((ids.mapM copy >>= fun ns => pure (w.number id :: ns) : StateM Copy _).run c₁) = _
      rw [StateT.run_bind, hrun₂]
      rfl

end Reduction

end Typewright
