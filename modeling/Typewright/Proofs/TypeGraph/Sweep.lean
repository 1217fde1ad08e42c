import Typewright.Proofs.TypeGraph.Edit

/-!
# Sweeps are runs of edits

Each function of a simplification is a run of edits from any stage whose live nodes are closed, and
so is the whole (`edits_settle`). In between only new slots are touched while the members of an
interface are relaxed, so the interface itself is still there when its members are done.
-/

namespace Typewright

/-- A sweep passes over nodes that another one stands for. -/
theorem Reduction.free_of_mem_postorder {w : Reduction} (h : ∀ id, w.Free (w.resolve id)) :
    ∀ id ∈ w.postorder, w.Free id := by
  refine Walk.postorder_induction (P := w.Free) ?_ fun a _ b hb => ?_
  · intro step hstep
    rw [List.mem_singleton.1 hstep]
    exact h _
  · obtain ⟨c, -, rfl⟩ := List.mem_map.1 hb
    exact h c

namespace Stage

variable {keep : Bool} {s t : Stage}

/-- `t` is reached from `s` by edits that keep what is live, and `t` holds the graph `w`. -/
structure Reached (keep : Bool) (s : Stage) (w : Reduction) (t : Stage) : Prop where
  edits : Edits keep s t
  work : t.work = w
  live : ∀ id, s.live id → t.live id

theorem Reached.refl (keep : Bool) (s : Stage) : Reached keep s s.work s := ⟨.refl, rfl, fun _ h => h⟩

theorem Reached.trans {w w' : Reduction} {u : Stage} (h : Reached keep s w t)
    (h' : Reached keep t w' u) : Reached keep s w' u :=
  ⟨h.edits.trans h'.edits, h'.work, fun id hid => h'.live id (h.live id hid)⟩

theorem Reached.of_edit (he : Edit keep s t) (hl : ∀ id, s.live id → t.live id) :
    Reached keep s t.work t :=
  ⟨.single he, rfl, hl⟩

/-! ## Combinations -/

/-- `t` is reached from `s` by one edit of the node `id`, and holds the graph `w`. -/
structure Touched (keep : Bool) (id : NodeId) (s : Stage) (w : Reduction) (t : Stage) : Prop where
  edit : Edit keep s t
  work : t.work = w
  live : t.live = s.live
  rests : t.rests = s.rests
  size : t.work.graph.size = s.work.graph.size
  get : ∀ i, i ≠ id → t.work.graph.get? i = s.work.graph.get? i
  leads : ∀ a b, t.work.Leads a b → s.work.Leads a b ∨ a = id

theorem Touched.fill {id : NodeId} {node node' : Node} (live : s.live id)
    (get : s.work.graph.get? id = some node) (hr : Rewrite keep s id node node') :
    Touched keep id s (s.work.fill id node') (s.fill id node') where
  edit := .rewrite live get hr
  work := rfl
  live := rfl
  rests := rfl
  size := s.work.graph.size_fill id node'
  get _ hi := s.work.graph.get?_fill_of_ne hi
  leads _ _ hl := .inl hl

/-- Reducing a combination is one edit, which touches no other slot. -/
theorem touched_reduceCombination (keep : Bool) {id : NodeId} {node : Node} {isUnion : Bool}
    {children : List NodeId} (live : s.live id) (get : s.work.graph.get? id = some node)
    (kind : node.kind = .combination isUnion children) (free : s.work.Free id) :
    ∃ t, Touched keep id s (s.work.reduceCombination id isUnion node children) t := by
  have hcombined := s.work.combined_reduceCombination id isUnion node children
  generalize s.work.reduceCombination id isUnion node children = v at hcombined ⊢
  cases hcombined with
  | absorb mem any => exact ⟨_, .fill live get (.absorb kind mem any)⟩
  | combine any => exact ⟨_, .fill live get (.combine kind any)⟩
  | copy single any ne member unnamed =>
      exact ⟨_, .fill live get (.copy kind single any ne member unnamed)⟩
  | @redirect only child single any ne member named unnamed bare =>
      have hedit : Edit keep s (s.redirect id only) :=
        .redirect live get kind single any ne member named unnamed bare free
      refine ⟨_, hedit, rfl, rfl, rfl, rfl, fun _ _ => rfl, fun a b hl => ?_⟩
      rcases s.leads_redirect id only hl with ⟨rfl, -⟩ | ⟨-, hl⟩
      · exact .inr rfl
      · exact .inl hl

/-! ## Interfaces -/

/-- What relaxing members does besides: slots and rests that were there stay, and redirects start at
new slots. -/
structure Extends (s t : Stage) : Prop where
  size : s.work.graph.size ≤ t.work.graph.size
  get : ∀ i, i < s.work.graph.size → t.work.graph.get? i = s.work.graph.get? i
  rests : ∀ p ∈ s.rests, p ∈ t.rests
  leads : ∀ a b, t.work.Leads a b → s.work.Leads a b ∨ s.work.graph.size ≤ a

theorem Extends.refl (s : Stage) : Extends s s :=
  ⟨Nat.le_refl _, fun _ _ => rfl, fun _ h => h, fun _ _ => .inl⟩

theorem Extends.trans {u : Stage} (h : Extends s t) (h' : Extends t u) : Extends s u where
  size := Nat.le_trans h.size h'.size
  get i hi := (h'.get i (Nat.lt_of_lt_of_le hi h.size)).trans (h.get i hi)
  rests p hp := h'.rests p (h.rests p hp)
  leads a b hl := by
    rcases h'.leads a b hl with hl | ha
    · exact h.leads a b hl
    · exact .inr (Nat.le_trans h.size ha)

theorem Relaxed.mono {m m' : InterfaceMember} (h : Relaxed s m m')
    (hr : ∀ p ∈ s.rests, p ∈ t.rests) : Relaxed t m m' := by
  cases h with
  | same => exact .same
  | rest hn => exact .rest (hr _ hn)

/-- Relaxing one member. -/
theorem edits_relaxMember (keep : Bool) {m : InterfaceMember} (hc : s.Closed) (hb : s.Bounded)
    (hm : s.live m.node) :
    ∃ t, Reached keep s (s.work.relaxMember m).1 t ∧ Extends s t ∧
      Relaxed t m (s.work.relaxMember m).2 := by
  unfold Reduction.relaxMember
  split
  · exact ⟨s, .refl keep s, .refl s, .same⟩
  · rename_i node get
    split
    · rename_i branches kind unnamed
      dsimp only
      split
      · exact ⟨s, .refl keep s, .refl s, .same⟩
      · rename_i undef
        have hbranch : Edit keep s _ := .branch hm get kind unnamed undef
        set rest : Node :=
          { kind := .union (s.work.defined branches), comment := node.comment, key := node.key }
        have hfree : (s.branch m.node rest).work.Free s.work.graph.size := fun b hl =>
          Nat.lt_irrefl _ (hb _ (hc.lead _ b hl).1)
        -- the new slot is reduced at once, and its place taken by the node that stands for it
        obtain ⟨t, ht⟩ :=
          touched_reduceCombination (s := s.branch m.node rest) keep (.inr rfl)
            (s.work.graph.get?_add_self rest) (show rest.kind = .combination true _ from rfl) hfree
        have hmem : (m.node, s.work.graph.size) ∈ t.rests := ht.rests ▸ List.mem_cons_self
        refine ⟨_, ⟨(Relation.ReflTransGen.single hbranch).tail ht.edit |>.tail (.restate hmem),
          ht.work, fun id hid => ?_⟩, ⟨?_, fun i hi => ?_, fun p hp => ?_, fun a b hl => ?_⟩, ?_⟩
        · exact ht.live ▸ .inl hid
        · show s.work.graph.size ≤ t.work.graph.size
          rw [ht.size, graph_branch, TypeGraph.size_add]
          exact Nat.le_succ _
        · exact (ht.get i (Nat.ne_of_lt hi)).trans (s.work.graph.get?_add_of_lt hi)
        · exact List.mem_cons_of_mem _ (ht.rests ▸ List.mem_cons_of_mem _ hp)
        · exact (ht.leads a b hl).imp_right fun ha => Nat.le_of_eq ha.symm
        · have hwork : (Reduction.reduceCombination
              { s.work with graph := (s.work.graph.add rest).2 } s.work.graph.size true rest
                (s.work.defined branches)) = t.work := ht.work.symm
          rw [TypeGraph.fst_add]
          show Relaxed _ m { m with node := Reduction.resolve _ s.work.graph.size, required := false }
          erw [hwork]
          exact .rest List.mem_cons_self
    · exact ⟨s, .refl keep s, .refl s, .same⟩

/-- Relaxing the members of an interface. -/
theorem edits_relaxMembers (keep : Bool) {members : List InterfaceMember} (hc : s.Closed)
    (hb : s.Bounded) (hm : ∀ m ∈ members, s.live m.node) :
    ∃ t, Reached keep s (s.work.relaxMembers members).1 t ∧ Extends s t ∧
      List.Forall₂ t.Relaxed members (s.work.relaxMembers members).2 := by
  induction members generalizing s with
  | nil => exact ⟨s, .refl keep s, .refl s, .nil⟩
  | cons m rest ih =>
      obtain ⟨t, ht, hst, hrel⟩ := edits_relaxMember keep hc hb (hm m List.mem_cons_self)
      obtain ⟨u, hu, htu, hrels⟩ := ih (s := t) (hc.edits ht.edits) (hb.edits ht.edits)
        fun m' hm' => ht.live _ (hm m' (List.mem_cons_of_mem _ hm'))
      rw [ht.work] at hu hrels
      exact ⟨u, ht.trans hu, hst.trans htu, .cons (hrel.mono htu.rests) hrels⟩

/-! ## Nodes, sweeps and the whole -/

/-- Reducing a live node without redirect. -/
theorem edits_reduce (keep : Bool) {id : NodeId} (hc : s.Closed) (hb : s.Bounded) (live : s.live id)
    (free : s.work.Free id) : ∃ t, Reached keep s (s.work.reduce keep id) t ∧
      ∀ a b, t.work.Leads a b → s.work.Leads a b ∨ a = id ∨ s.work.graph.size ≤ a := by
  unfold Reduction.reduce
  split
  · exact ⟨s, .refl keep s, fun _ _ => .inl⟩
  · rename_i node get
    have hresolve : Edit keep s _ := .rewrite live get .resolve
    have hcombination : ∀ {isUnion children}, node.kind = .combination isUnion children →
        ∃ t, Reached keep s (s.work.reduceCombination id isUnion node children) t ∧
          ∀ a b, t.work.Leads a b → s.work.Leads a b ∨ a = id ∨ s.work.graph.size ≤ a := by
      intro isUnion children kind
      obtain ⟨t, ht⟩ := touched_reduceCombination keep live get kind free
      exact ⟨t, ⟨.single ht.edit, ht.work, fun _ h => ht.live ▸ h⟩, fun a b hl =>
        (ht.leads a b hl).imp_right .inl⟩
    dsimp only
    split
    · rename_i children kind
      exact @hcombination true _ kind
    · rename_i children kind
      exact @hcombination false _ kind
    · rename_i members supers kind
      rw [kind] at hresolve
      simp only [kind, Kind.mapChildren, Reduction.reduceInterface]
      set members₁ := members.map fun m => { m with node := s.work.resolve m.node } with hmembers₁
      set node₁ : Node :=
        { node with kind := .interface members₁ (supers.map s.work.resolve) } with hnode₁
      set s₁ := s.fill id node₁ with hs₁
      have hc₁ : s₁.Closed := hc.edit hresolve
      have get₁ : s₁.work.graph.get? id = some node₁ :=
        s.work.graph.get?_fill_self (s.work.graph.lt_size_of_get? get)
      have hlive : ∀ m ∈ Reduction.kept keep members₁, s₁.live m.node := fun m hm =>
        hc₁.child_of_get live get₁ (List.mem_append_left _ (List.mem_map_of_mem (kept_subset hm)))
      obtain ⟨t, ht, hst, hrel⟩ := edits_relaxMembers keep hc₁ (hb.edit hresolve) hlive
      have hfirst : Reached keep s s₁.work s₁ := .of_edit hresolve fun _ h => h
      have get₂ : t.work.graph.get? id = some node₁ :=
        (hst.get id (s₁.work.graph.lt_size_of_get? get₁)).trans get₁
      have hlast : Edit keep t _ := .rewrite (ht.live id live) get₂ (.interface rfl hrel)
      refine ⟨_, (hfirst.trans ht).trans ⟨.single hlast, ?_, fun _ h => h⟩, fun a b hl => ?_⟩
      · simp only [Stage.fill, ht.work]
        rfl
      · have hsize : s₁.work.graph.size = s.work.graph.size := s.work.graph.size_fill id node₁
        exact (hst.leads a b hl).imp_right fun ha => .inr (hsize ▸ ha)
    · exact ⟨_, .of_edit hresolve fun _ h => h, fun _ _ => .inl⟩

/-- Reducing live nodes without redirect one after the other. -/
theorem edits_foldl (keep : Bool) {ids : List NodeId} (hc : s.Closed) (hb : s.Bounded)
    (hids : ∀ id ∈ ids, s.live id) (hfree : ∀ id ∈ ids, s.work.Free id) (hnodup : ids.Nodup) :
    ∃ t, Reached keep s (ids.foldl (Reduction.reduce keep) s.work) t := by
  induction ids generalizing s with
  | nil => exact ⟨s, .refl keep s⟩
  | cons id rest ih =>
      obtain ⟨hid, hrest⟩ := List.nodup_cons.1 hnodup
      obtain ⟨t, ht, hleads⟩ := edits_reduce keep hc hb (hids id List.mem_cons_self)
        (hfree id List.mem_cons_self)
      have hstays : ∀ i ∈ rest, t.work.Free i := by
        intro i hi b hl
        rcases hleads i b hl with hl | rfl | hsize
        · exact hfree i (List.mem_cons_of_mem _ hi) b hl
        · exact hid hi
        · exact Nat.not_lt.2 hsize (hb i (hids i (List.mem_cons_of_mem _ hi)))
      obtain ⟨u, hu⟩ := ih (s := t) (hc.edits ht.edits) (hb.edits ht.edits)
        (fun i hi => ht.live i (hids i (List.mem_cons_of_mem _ hi))) hstays hrest
      rw [ht.work] at hu
      exact ⟨u, ht.trans hu⟩

/-- The nodes of a sweep are live. -/
theorem Closed.postorder (hc : s.Closed) : ∀ id ∈ s.work.postorder, s.live id := by
  refine Walk.postorder_induction (P := s.live) ?_ fun a ha b hb => ?_
  · intro step hstep
    rw [List.mem_singleton.1 hstep]
    exact hc.resolve hc.root
  · obtain ⟨c, hmem, rfl⟩ := List.mem_map.1 hb
    exact hc.resolve (hc.child a ha c hmem)

theorem Oriented.postorder (ho : s.Oriented) : ∀ id ∈ s.work.postorder, s.work.Free id :=
  Reduction.free_of_mem_postorder ho.free_resolve

theorem edits_sweep (keep : Bool) (hc : s.Closed) (hb : s.Bounded) (ho : s.Oriented) :
    ∃ t, Reached keep s (s.work.sweep keep) t :=
  edits_foldl keep hc hb hc.postorder ho.postorder
    (Walk.nodup_postorder (Walk.nodup_eraseDups _))

/-- All sweeps together are a run of edits. -/
theorem edits_settle (keep : Bool) (limit : Nat) (hc : s.Closed) (hb : s.Bounded) (ho : s.Oriented) :
    ∃ t, Reached keep s (Reduction.settle keep limit s.work) t := by
  induction limit generalizing s with
  | zero => exact edits_sweep keep hc hb ho
  | succ limit ih =>
      obtain ⟨t, ht⟩ := edits_sweep keep hc hb ho
      simp only [Reduction.settle]
      split
      · exact ⟨t, ht⟩
      · obtain ⟨u, hu⟩ := ih (s := t) (hc.edits ht.edits) (hb.edits ht.edits) (ho.edits ht.edits)
        rw [ht.work] at hu
        exact ⟨u, ht.trans hu⟩

end Stage

end Typewright
