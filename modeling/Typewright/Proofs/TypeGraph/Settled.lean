import Typewright.Proofs.TypeGraph.Compact

/-!
# Sweeps that change nothing

A step of a sweep rewrites the slot of its node, redirects it or adds further slots. None of these is
undone by a later step of the same sweep, so if a sweep changes nothing then none of its steps does
(`reduce_eq_self_of_settled`).
-/

namespace Typewright

theorem TypeGraph.fill_fill (g : TypeGraph) (id : NodeId) (node node' : Node) :
    (g.fill id node).fill id node' = g.fill id node' := by
  simp [fill]

theorem TypeGraph.fill_eq_self {g : TypeGraph} {id : NodeId} {node : Node}
    (h : g.get? id = some node) : g.fill id node = g := by
  obtain ⟨hlt, hget⟩ := Array.getElem?_eq_some_iff.1 ((g.get?_eq_some_iff).1 h)
  have hset : g.nodes.setIfInBounds id (some node) = g.nodes := by
    rw [Array.setIfInBounds, dif_pos hlt, ← hget, Array.set_getElem_self]
  rw [fill, hset]

namespace Reduction

variable {keep : Bool} {w v : Reduction} {id : NodeId}

theorem fill_fill (w : Reduction) (id : NodeId) (node node' : Node) :
    (w.fill id node).fill id node' = w.fill id node' := by
  simp only [fill, TypeGraph.fill_fill]

theorem fill_eq_self {node : Node} (h : w.graph.get? id = some node) : w.fill id node = w := by
  rw [fill, TypeGraph.fill_eq_self h]

/-! ## What a step does -/

theorem Combined.size {node : Node} {isUnion : Bool} {members : List NodeId}
    (h : Combined w id isUnion node members v) : v.graph.size = w.graph.size := by
  cases h with
  | redirect => rfl
  | _ => exact w.graph.size_fill ..

theorem size_reduceCombination (w : Reduction) (id : NodeId) (isUnion : Bool) (node : Node)
    (children : List NodeId) :
    (w.reduceCombination id isUnion node children).graph.size = w.graph.size :=
  (w.combined_reduceCombination id isUnion node children).size

theorem reduceCombination_cases (w : Reduction) (id : NodeId) (isUnion : Bool) (node : Node)
    (children : List NodeId) :
    (∃ n, w.reduceCombination id isUnion node children = w.fill id n) ∨
      ∃ target, w.reduceCombination id isUnion node children = w.redirect id target := by
  have hcombined := w.combined_reduceCombination id isUnion node children
  generalize w.reduceCombination id isUnion node children = v at hcombined ⊢
  cases hcombined with
  | redirect => exact .inr ⟨_, rfl⟩
  | _ => exact .inl ⟨_, rfl⟩

/-- A node is for a reduction an unnamed union with a branch `undefined`. -/
def OffersUndefined (w : Reduction) (id : NodeId) : Prop :=
  ∃ node branches, w.graph.get? id = some node ∧ node.name = none ∧ node.kind = .union branches ∧
    ∃ b ∈ branches, w.isUndefined b = true

/-- A graph with a slot for the rest of a union. -/
def branched (w : Reduction) (union : Node) (branches : List NodeId) : Reduction :=
  { w with graph := (w.graph.add
    { kind := .union (w.defined branches), comment := union.comment, key := union.key }).2 }

/-- A member is left as it is, or its type is a union with `undefined` and it becomes an optional
member of the rest of this union. -/
theorem relaxMember_eq (w : Reduction) (m : InterfaceMember) :
    w.relaxMember m = (w, m) ∨
      w.OffersUndefined m.node ∧ ∃ union branches v, w.graph.get? m.node = some union ∧
        union.kind = .union branches ∧
        Combined (w.branched union branches) w.graph.size true
          { kind := .union (w.defined branches), comment := union.comment, key := union.key }
          ((w.branched union branches).members w.graph.size true (w.defined branches)) v ∧
        w.relaxMember m = (v, { m with node := v.resolve w.graph.size, required := false }) := by
  unfold relaxMember
  split
  · exact .inl rfl
  · rename_i union get
    split
    · rename_i branches kind unnamed
      dsimp only
      split
      · exact .inl rfl
      · rename_i hne
        have hundef : ∃ b ∈ branches, w.isUndefined b = true := by
          by_contra hall
          simp only [not_exists, not_and, Bool.not_eq_true] at hall
          refine hne (congrArg List.length (List.filter_eq_self.2 fun b hb => ?_))
          rw [hall b hb]
          rfl
        exact .inr ⟨⟨union, branches, get, unnamed, kind, hundef⟩, union, branches, _, get, kind,
          combined_reduceCombination (w.branched union branches) w.graph.size true _ _, rfl⟩
    · exact .inl rfl

theorem size_branched (w : Reduction) (union : Node) (branches : List NodeId) :
    (w.branched union branches).graph.size = w.graph.size + 1 := w.graph.size_add _

/-- A member is left as it is, or a slot is added. -/
theorem relaxMember_cases (w : Reduction) (m : InterfaceMember) :
    w.relaxMember m = (w, m) ∨ w.graph.size < (w.relaxMember m).1.graph.size := by
  refine w.relaxMember_eq m |>.imp_right ?_
  rintro ⟨-, union, branches, v, -, -, hv, heq⟩
  rw [heq, hv.size, size_branched]
  exact Nat.lt_succ_self _

theorem relaxMembers_cases (w : Reduction) (members : List InterfaceMember) :
    (w.relaxMembers members = (w, members) ∧ ∀ m ∈ members, w.relaxMember m = (w, m)) ∨
      w.graph.size < (w.relaxMembers members).1.graph.size := by
  induction members generalizing w with
  | nil => exact .inl ⟨rfl, by simp⟩
  | cons m rest ih =>
      have hcons : w.relaxMembers (m :: rest) = (((w.relaxMember m).1.relaxMembers rest).1,
          (w.relaxMember m).2 :: ((w.relaxMember m).1.relaxMembers rest).2) := rfl
      rw [hcons]
      rcases w.relaxMember_cases m with hm | hm
      · rw [hm]
        rcases ih w with ⟨hrest, hall⟩ | hrest
        · rw [hrest]
          exact .inl ⟨rfl, List.forall_mem_cons.2 ⟨hm, hall⟩⟩
        · exact .inr hrest
      · right
        rcases ih (w.relaxMember m).1 with ⟨hrest, -⟩ | hrest
        · rw [hrest]
          exact hm
        · exact Nat.lt_trans hm hrest

/-- A node with its children replaced by the nodes that stand for them. -/
def resolved (w : Reduction) (node : Node) : Node :=
  { node with kind := node.kind.mapChildren w.resolve }

theorem reduce_combination {node : Node} {isUnion : Bool} {cs : List NodeId}
    (hget : w.graph.get? id = some node) (kind : node.kind = .combination isUnion cs) :
    w.reduce keep id = w.reduceCombination id isUnion node cs := by
  unfold reduce
  rw [hget]
  dsimp only
  rw [kind]
  cases isUnion <;> rfl

theorem reduce_interface {node : Node} {members : List InterfaceMember} {supers : List NodeId}
    (hget : w.graph.get? id = some node)
    (kind : (w.resolved node).kind = .interface members supers) :
    w.reduce keep id =
      ((w.fill id (w.resolved node)).relaxMembers (kept keep members)).1.fill id
        { node with
          kind := .interface ((w.fill id (w.resolved node)).relaxMembers (kept keep members)).2
            supers } := by
  obtain ⟨k, name, comment, key⟩ := node
  unfold reduce
  rw [hget]
  cases k with
  | interface members' supers' =>
      obtain ⟨rfl, rfl⟩ := Kind.interface.inj kind
      rfl
  | _ => cases kind

/-- The step of a node is decided by its kind. -/
theorem reduce_of_get? (keep : Bool) {node : Node} (hget : w.graph.get? id = some node) :
    (∃ isUnion cs, node.kind = .combination isUnion cs) ∨
      (∃ members supers, node.kind = .interface members supers) ∨
      w.reduce keep id = w.fill id (w.resolved node) := by
  obtain ⟨kind, name, comment, key⟩ := node
  unfold reduce
  rw [hget]
  cases kind with
  | union cs => exact .inl ⟨true, cs, rfl⟩
  | intersection cs => exact .inl ⟨false, cs, rfl⟩
  | interface members supers => exact .inr (.inl ⟨members, supers, rfl⟩)
  | _ => exact .inr (.inr rfl)

/-- A step does nothing, rewrites the slot of its node, redirects its node or adds slots. -/
theorem reduce_cases (keep : Bool) (w : Reduction) (id : NodeId) :
    w.reduce keep id = w ∨ (∃ n, w.reduce keep id = w.fill id n) ∨
      (∃ target, w.reduce keep id = w.redirect id target) ∨
      w.graph.size < (w.reduce keep id).graph.size := by
  cases hget : w.graph.get? id with
  | none =>
      left
      unfold reduce
      rw [hget]
  | some node =>
      right
      rcases w.reduce_of_get? keep hget with ⟨isUnion, cs, kind⟩ | ⟨members, supers, kind⟩ | heq
      · rw [reduce_combination hget kind]
        exact (w.reduceCombination_cases id isUnion node cs).imp_right .inl
      · rw [reduce_interface hget (congrArg (Kind.mapChildren w.resolve) kind)]
        generalize kept keep _ = ms
        rcases relaxMembers_cases (w.fill id (w.resolved node)) ms with ⟨heq, -⟩ | hlt
        · rw [heq, fill_fill]
          exact .inl ⟨_, rfl⟩
        · refine .inr (.inr ?_)
          rw [fill, TypeGraph.size_fill]
          rwa [fill, TypeGraph.size_fill] at hlt
      · exact .inl ⟨_, heq⟩

/-! ## What a series of steps leaves -/

theorem size_le_reduce (keep : Bool) (w : Reduction) (id : NodeId) :
    w.graph.size ≤ (w.reduce keep id).graph.size := by
  rcases w.reduce_cases keep id with heq | ⟨n, heq⟩ | ⟨target, heq⟩ | hlt
  · exact Nat.le_of_eq (congrArg (·.graph.size) heq.symm)
  · rw [heq]
    exact Nat.le_of_eq (w.graph.size_fill id n).symm
  · rw [heq]
    exact Nat.le_refl _
  · exact Nat.le_of_lt hlt

theorem size_le_foldl (keep : Bool) (w : Reduction) (ids : List NodeId) :
    w.graph.size ≤ (ids.foldl (reduce keep) w).graph.size := by
  induction ids generalizing w with
  | nil => exact Nat.le_refl _
  | cons id rest ih => exact Nat.le_trans (w.size_le_reduce keep id) (ih _)

/-- What steps leave where they add no slots: the slots of other nodes, and redirects. -/
structure Leaves (id : NodeId) (w v : Reduction) : Prop where
  get : v.graph.get? id = w.graph.get? id
  free : v.Free id → w.Free id

theorem leaves_reduce {i : NodeId} (hne : i ≠ id)
    (hsize : (w.reduce keep id).graph.size = w.graph.size) : Leaves i w (w.reduce keep id) := by
  rcases w.reduce_cases keep id with heq | ⟨n, heq⟩ | ⟨target, heq⟩ | hlt
  · rw [heq]
    exact ⟨rfl, fun h => h⟩
  · rw [heq]
    exact ⟨w.graph.get?_fill_of_ne hne, fun h => h⟩
  · rw [heq]
    refine ⟨rfl, fun hfree b hl => hfree b (List.mem_cons_of_mem _ (List.mem_filter.2 ⟨hl, ?_⟩))⟩
    simpa using hne
  · omega

theorem leaves_foldl {ids : List NodeId} {i : NodeId} (hi : i ∉ ids)
    (hsize : (ids.foldl (reduce keep) w).graph.size = w.graph.size) :
    Leaves i w (ids.foldl (reduce keep) w) := by
  induction ids generalizing w with
  | nil => exact ⟨rfl, fun h => h⟩
  | cons a rest ih =>
      obtain ⟨hne, hrest⟩ := not_or.1 (mt List.mem_cons.2 hi)
      rw [List.foldl_cons] at hsize ⊢
      have hstep := w.size_le_reduce keep a
      have hfold := (w.reduce keep a).size_le_foldl keep rest
      have hfirst := leaves_reduce hne (Nat.le_antisymm (hsize ▸ hfold) hstep)
      have hlast := ih hrest (Nat.le_antisymm (Nat.le_trans (Nat.le_of_eq hsize) hstep) hfold)
      exact ⟨hlast.get.trans hfirst.get, fun h => hfirst.free (hlast.free h)⟩

/-- If a series of steps changes nothing then none of its steps does. -/
theorem reduce_eq_self_of_foldl {ids : List NodeId} (hnodup : ids.Nodup)
    (hfree : ∀ i ∈ ids, w.Free i) (h : ids.foldl (reduce keep) w = w) :
    ∀ i ∈ ids, w.reduce keep i = w := by
  induction ids with
  | nil => simp
  | cons a rest ih =>
      obtain ⟨ha, hrest⟩ := List.nodup_cons.1 hnodup
      rw [List.foldl_cons] at h
      have hstep := w.size_le_reduce keep a
      have hfold := (w.reduce keep a).size_le_foldl keep rest
      rw [h] at hfold
      have hleaves : Leaves a (w.reduce keep a) w := by
        have hsize : (rest.foldl (reduce keep) (w.reduce keep a)).graph.size =
            (w.reduce keep a).graph.size := by
          rw [h]
          exact Nat.le_antisymm hstep hfold
        have hleaves := leaves_foldl ha hsize
        rwa [h] at hleaves
      have hself : w.reduce keep a = w := by
        rcases w.reduce_cases keep a with heq | ⟨n, heq⟩ | ⟨target, heq⟩ | hlt
        · exact heq
        · rw [heq] at hleaves ⊢
          by_cases hlt : a < w.graph.size
          · exact fill_eq_self (hleaves.get.trans (w.graph.get?_fill_self hlt))
          · rw [fill, TypeGraph.fill_of_size_le _ (Nat.not_lt.1 hlt)]
        · rw [heq] at hleaves
          exact absurd List.mem_cons_self (hleaves.free (hfree a List.mem_cons_self) target)
        · omega
      rw [hself] at h
      exact List.forall_mem_cons.2 ⟨hself, ih hrest
        (fun i hi => hfree i (List.mem_cons_of_mem _ hi)) h⟩

/-! ## Sweeps -/

/-- A sweep changes nothing. -/
def Settled (keep : Bool) (w : Reduction) : Prop := w.sweep keep = w

instance (keep : Bool) (w : Reduction) : Decidable (w.Settled keep) :=
  inferInstanceAs (Decidable (w.sweep keep = w))

/-- A sweep visits all nodes of the result. -/
theorem mem_postorder_of_mem_order : ∀ i ∈ w.order, i ∈ w.postorder := by
  refine w.order_induction ?_ fun i node hi hn c hc => ?_
  · exact Walk.mem_postorder_of_enter List.mem_cons_self
      (w.resolve_mem_mentioned w.graph.root_mem_mentioned)
  · have hrefers : w.graph.Refers i c := by
      rwa [TypeGraph.Refers, w.graph.childrenOf_eq hn]
    have hmem := (Walk.mem_of_mem_postorder hi).resolve_right (by simp)
    exact Walk.next_mem_postorder (Walk.nodup_eraseDups _) (by simp) hi hmem
      (List.mem_map_of_mem hrefers)
      (w.resolve_mem_mentioned (w.graph.mem_mentioned_of_refers hrefers))

/-- A sweep visits each node after what it leads to. -/
theorem belowFirst_postorder (w : Reduction) : Walk.BelowFirst w.childrenOf [] w.postorder := by
  refine Walk.belowFirst_postorder (P := (· ∈ w.mentioned))
    (w.resolve_mem_mentioned w.graph.root_mem_mentioned) (fun a _ b hb => ?_) (fun _ ha => ha)
    (Walk.nodup_eraseDups _)
  obtain ⟨c, hc, rfl⟩ := List.mem_map.1 hb
  exact w.resolve_mem_mentioned (w.graph.mem_mentioned_of_refers hc)

/-- A sweep visits only nodes of the result. -/
theorem mem_order_of_mem_postorder : ∀ i ∈ w.postorder, i ∈ w.order := by
  refine Walk.postorder_induction (fun s hs => ?_) fun a ha b hb => ?_
  · rw [List.mem_singleton.1 hs]
    exact w.root_mem_order
  · obtain ⟨c, hc, rfl⟩ := List.mem_map.1 hb
    exact Walk.next_mem_preorder ha hb
      (w.resolve_mem_mentioned (w.graph.mem_mentioned_of_refers hc))

/-- If no step changes anything then no sweep does. -/
theorem settled_of_reduce_eq_self (h : ∀ i ∈ w.order, w.reduce keep i = w) : w.Settled keep := by
  have hall : ∀ i ∈ w.postorder, w.reduce keep i = w := fun i hi =>
    h i (mem_order_of_mem_postorder i hi)
  unfold Settled sweep
  generalize w.postorder = ids at hall
  induction ids with
  | nil => rfl
  | cons i rest ih =>
      obtain ⟨hi, hrest⟩ := List.forall_mem_cons.1 hall
      rw [List.foldl_cons, hi]
      exact ih hrest

/-- If the first sweep leaves nothing to do then it is the last one that changes anything. -/
theorem settle_eq_sweep (h : (w.sweep keep).Settled keep) (limit : Nat) :
    settle keep limit w = w.sweep keep := by
  cases limit with
  | zero => rfl
  | succ limit =>
      rw [settle]
      split
      · rfl
      · exact settle_eq_self h limit

/-- If a sweep changes nothing then none of its steps does. -/
theorem reduce_eq_self_of_settled (hfree : ∀ i ∈ w.postorder, w.Free i) (h : w.Settled keep) :
    ∀ i ∈ w.order, w.reduce keep i = w := fun i hi =>
  reduce_eq_self_of_foldl (Walk.nodup_postorder (Walk.nodup_eraseDups _)) hfree h i
    (mem_postorder_of_mem_order i hi)

end Reduction

end Typewright
