import Typewright.Proofs.TypeGraph.Done

/-!
# What a step leaves of other nodes

What a step does is said here for any graph, even one with children that have no slot: reducing a
combination fills its slot or redirects it (`Combined`), and relaxing a member reduces a new slot
(`relaxMember_eq`). So a slot keeps the name of its node and a comment that it has, no redirect
starts at a node with a name or a comment (`keeps_reduce`), and all other slots stay as they are
(`get?_reduce_of_ne`).
-/

namespace Typewright

namespace Reduction

variable {keep : Bool} {w v u : Reduction} {id i : NodeId} {node : Node} {isUnion : Bool}
  {children : List NodeId} {m : InterfaceMember} {members : List InterfaceMember}

/-! ## Slots that stay as they are -/

theorem get?_relaxMember_of_lt (hi : i < w.graph.size) :
    (w.relaxMember m).1.graph.get? i = w.graph.get? i := by
  rcases w.relaxMember_eq m with heq | ⟨-, union, branches, v, -, -, hv, heq⟩
  · rw [heq]
  · rw [heq]
    exact (hv.retains.get i (Nat.ne_of_lt hi)).trans (w.graph.get?_add_of_lt hi)

theorem size_le_relaxMember (w : Reduction) (m : InterfaceMember) :
    w.graph.size ≤ (w.relaxMember m).1.graph.size := by
  rcases w.relaxMember_cases m with heq | hlt
  · rw [heq]
  · exact Nat.le_of_lt hlt

theorem get?_relaxMembers_of_lt (hi : i < w.graph.size) :
    (w.relaxMembers members).1.graph.get? i = w.graph.get? i := by
  induction members generalizing w with
  | nil => rfl
  | cons m rest ih =>
      exact (ih (Nat.lt_of_lt_of_le hi (w.size_le_relaxMember m))).trans (get?_relaxMember_of_lt hi)

/-- A step leaves the slots of other nodes alone. -/
theorem get?_reduce_of_ne (hi : i < w.graph.size) (hne : i ≠ id) :
    (w.reduce keep id).graph.get? i = w.graph.get? i := by
  cases get : w.graph.get? id with
  | none =>
      unfold reduce
      rw [get]
  | some node =>
      rcases w.reduce_of_get? keep get with ⟨isUnion, cs, kind⟩ | ⟨members, supers, kind⟩ | heq
      · rw [reduce_combination get kind]
        exact (combined_reduceCombination ..).retains.get i hne
      · rw [reduce_interface get (congrArg (Kind.mapChildren w.resolve) kind)]
        have hlt : i < (w.fill id (w.resolved node)).graph.size := by
          rwa [fill, TypeGraph.size_fill]
        refine (TypeGraph.get?_fill_of_ne _ hne).trans ?_
        exact (get?_relaxMembers_of_lt hlt).trans (w.graph.get?_fill_of_ne hne)
      · rw [heq]
        exact w.graph.get?_fill_of_ne hne

/-! ## Names and comments that last -/

/-- What lasts from `w` to `v`: the root, the names of nodes, comments and that no redirect starts at
a node with a name or a comment. No other node is named. -/
structure Keeps (w v : Reduction) : Prop where
  size : w.graph.size ≤ v.graph.size
  root : v.graph.root = w.graph.root
  slot : ∀ i node, w.graph.get? i = some node → ∃ node', v.graph.get? i = some node' ∧
    node'.name = node.name ∧ ∀ c, node.comment = some c → node'.comment = some c
  free : ∀ i node, w.graph.get? i = some node → node.name.isSome ∨ node.comment.isSome →
    w.Free i → v.Free i
  named : ∀ i node' name, v.graph.get? i = some node' → node'.name = some name →
    ∃ node, w.graph.get? i = some node ∧ node.name = some name
  contained : w.Contained → v.Contained

theorem Keeps.refl (w : Reduction) : Keeps w w where
  size := Nat.le_refl _
  root := rfl
  slot _ node get := ⟨node, get, rfl, fun _ h => h⟩
  free _ _ _ _ h := h
  named _ node _ get hname := ⟨node, get, hname⟩
  contained h := h

theorem Keeps.trans (h : Keeps w v) (h' : Keeps v u) : Keeps w u where
  size := Nat.le_trans h.size h'.size
  root := h'.root.trans h.root
  slot i node get := by
    obtain ⟨node', get', hname, hcomment⟩ := h.slot i node get
    obtain ⟨node'', get'', hname', hcomment'⟩ := h'.slot i node' get'
    exact ⟨node'', get'', hname'.trans hname, fun c hc => hcomment' c (hcomment c hc)⟩
  free i node get hmark hfree := by
    obtain ⟨node', get', hname, hcomment⟩ := h.slot i node get
    refine h'.free i node' get' (hmark.imp (fun hn => hname ▸ hn) fun hc => ?_)
      (h.free i node get hmark hfree)
    obtain ⟨c, hc⟩ := Option.isSome_iff_exists.1 hc
    exact Option.isSome_iff_exists.2 ⟨c, hcomment c hc⟩
  named i node' name get hname := by
    obtain ⟨mid, hmid, hname⟩ := h'.named i node' name get hname
    exact h.named i mid name hmid hname
  contained hw := h'.contained (h.contained hw)

theorem keeps_fill {node' : Node} (get : w.graph.get? id = some node) (hname : node'.name = node.name)
    (hcomment : ∀ c, node.comment = some c → node'.comment = some c) : Keeps w (w.fill id node') where
  size := Nat.le_of_eq (w.graph.size_fill id node').symm
  root := rfl
  slot i old hi := by
    rw [fill, w.graph.get?_fill (w.graph.lt_size_of_get? get)]
    split
    · rename_i heq
      obtain rfl := Option.some.inj (get.symm.trans (heq ▸ hi))
      exact ⟨node', rfl, hname, hcomment⟩
    · exact ⟨old, hi, rfl, fun _ h => h⟩
  free _ _ _ _ h := h
  named i new name hi hnew := by
    rw [fill, w.graph.get?_fill (w.graph.lt_size_of_get? get)] at hi
    split at hi
    · rename_i heq
      obtain rfl := Option.some.inj hi
      exact ⟨node, heq ▸ get, hname ▸ hnew⟩
    · exact ⟨new, hi, hnew⟩
  contained h i hi := h i (Nat.le_trans (Nat.le_of_eq (w.graph.size_fill id node').symm) hi)

theorem free_redirect {target : NodeId} (h : w.Free i) (hne : i ≠ id) :
    (w.redirect id target).Free i := by
  rw [free_iff, lookup_redirect_of_ne hne]
  exact free_iff.1 h

theorem keeps_redirect {target : NodeId} (get : w.graph.get? id = some node)
    (hname : node.name = none) (hcomment : node.comment = none) : Keeps w (w.redirect id target) where
  size := Nat.le_refl _
  root := rfl
  slot _ node get := ⟨node, get, rfl, fun _ h => h⟩
  free i old hi hmark hfree := by
    refine free_redirect hfree fun heq => ?_
    obtain rfl := Option.some.inj (get.symm.trans (heq ▸ hi))
    rcases hmark with h | h <;> simp [hname, hcomment] at h
  named _ node _ get hname := ⟨node, get, hname⟩
  contained h i hi := by
    refine free_redirect (h i hi) ?_
    rintro rfl
    exact Nat.not_lt.2 hi (w.graph.lt_size_of_get? get)

theorem keeps_branched (w : Reduction) (union : Node) (branches : List NodeId) :
    Keeps w (w.branched union branches) where
  size := Nat.le_of_lt (w.size_branched union branches ▸ Nat.lt_succ_self _)
  root := rfl
  slot i node get :=
    ⟨node, (w.graph.get?_add_of_lt (w.graph.lt_size_of_get? get)).trans get, rfl, fun _ h => h⟩
  free _ _ _ _ h := h
  named i node name get hname := by
    by_cases hi : i = w.graph.size
    · subst hi
      obtain rfl := Option.some.inj ((w.graph.get?_add_self _).symm.trans get)
      cases hname
    · exact ⟨node, (w.graph.get?_add_of_ne hi).symm.trans get, hname⟩
  contained h i hi := by
    rw [size_branched] at hi
    exact h i (Nat.le_of_succ_le hi)

theorem Combined.keeps (h : Combined w id isUnion node children v)
    (get : w.graph.get? id = some node) : Keeps w v := by
  cases h with
  | absorb => exact keeps_fill get rfl fun _ h => h
  | combine => exact keeps_fill get rfl fun _ h => h
  | copy => exact keeps_fill get rfl fun c h => by rw [h]; rfl
  | redirect _ _ _ _ _ unnamed bare => exact keeps_redirect get unnamed bare

theorem keeps_relaxMember (w : Reduction) (m : InterfaceMember) : Keeps w (w.relaxMember m).1 := by
  rcases w.relaxMember_eq m with heq | ⟨-, union, branches, v, -, -, hv, heq⟩
  · rw [heq]
    exact .refl w
  · rw [heq]
    exact (w.keeps_branched union branches).trans (hv.keeps (w.graph.get?_add_self _))

theorem keeps_relaxMembers (w : Reduction) (members : List InterfaceMember) :
    Keeps w (w.relaxMembers members).1 := by
  induction members generalizing w with
  | nil => exact .refl w
  | cons m rest ih => exact (w.keeps_relaxMember m).trans (ih _)

theorem keeps_reduce (keep : Bool) (w : Reduction) (id : NodeId) : Keeps w (w.reduce keep id) := by
  cases get : w.graph.get? id with
  | none =>
      have hself : w.reduce keep id = w := by
        unfold reduce
        rw [get]
      exact hself.symm ▸ .refl w
  | some node =>
      rcases w.reduce_of_get? keep get with ⟨isUnion, cs, kind⟩ | ⟨members, supers, kind⟩ | heq
      · rw [reduce_combination get kind]
        exact (combined_reduceCombination ..).keeps get
      · rw [reduce_interface get (congrArg (Kind.mapChildren w.resolve) kind)]
        have hlt : id < (w.fill id (w.resolved node)).graph.size := by
          rw [fill, TypeGraph.size_fill]
          exact w.graph.lt_size_of_get? get
        have hfill : Keeps w (w.fill id (w.resolved node)) := keeps_fill get rfl fun _ h => h
        refine (hfill.trans (keeps_relaxMembers _ _)).trans
          (keeps_fill (?_ : TypeGraph.get? _ id = some (w.resolved node)) rfl fun _ h => h)
        rw [get?_relaxMembers_of_lt hlt]
        exact w.graph.get?_fill_self (w.graph.lt_size_of_get? get)
      · rw [heq]
        exact keeps_fill get rfl fun _ h => h

theorem keeps_foldl (keep : Bool) (w : Reduction) (ids : List NodeId) :
    Keeps w (ids.foldl (reduce keep) w) := by
  induction ids generalizing w with
  | nil => exact .refl w
  | cons id rest ih => exact (w.keeps_reduce keep id).trans (ih _)

theorem keeps_settle (keep : Bool) (limit : Nat) (w : Reduction) : Keeps w (settle keep limit w) := by
  induction limit generalizing w with
  | zero => exact w.keeps_foldl keep _
  | succ limit ih =>
      simp only [settle]
      split
      · exact w.keeps_foldl keep _
      · exact (w.keeps_foldl keep _).trans (ih _)

/-! ## Live nodes -/

section Live

variable {live : NodeId → Prop}

/-- The live nodes contain the root, the children of live nodes and what redirects mention. -/
abbrev Alive (w : Reduction) (live : NodeId → Prop) : Prop := (Stage.mk w live []).Closed

theorem Combined.alive (h : Combined w id isUnion node children v) (hw : w.Alive live)
    (hid : live id) (hc : ∀ c ∈ children, live c) : v.Alive live := by
  cases h with
  | absorb => exact hw.fill nofun
  | combine => exact hw.fill fun c hmem => hc c (by rwa [Kind.children_combination] at hmem)
  | @copy only child single _ _ member =>
      exact hw.fill fun c hmem =>
        hw.child_of_get (hc only (single ▸ List.mem_singleton_self only)) member hmem
  | @redirect only _ single =>
      refine ⟨hw.root, hw.child, fun a b hl => ?_, hw.rest⟩
      rcases (Stage.mk w live []).leads_redirect id only hl with ⟨rfl, rfl⟩ | ⟨-, hl⟩
      · exact ⟨hid, hc _ (single ▸ List.mem_singleton_self _)⟩
      · exact hw.lead a b hl

theorem alive_relaxMember (hw : w.Alive live) (hnew : ∀ i, w.graph.size ≤ i → live i)
    (hm : live m.node) :
    (w.relaxMember m).1.Alive live ∧ live (w.relaxMember m).2.node := by
  rcases w.relaxMember_eq m with heq | ⟨-, union, branches, v, get, kind, hv, heq⟩
  · rw [heq]
    exact ⟨hw, hm⟩
  · have hrest : ∀ c ∈ w.defined branches, live c := fun c hc =>
      hw.child_of_get hm get (by rw [kind]; exact (List.mem_filter.1 hc).1)
    have hbranched : (w.branched union branches).Alive live := by
      refine ⟨hw.root, fun i hi c hc => ?_, hw.lead, hw.rest⟩
      by_cases hsize : i = w.graph.size
      · subst hsize
        have hchildren := (w.branched union branches).graph.childrenOf_eq (w.graph.get?_add_self _)
        exact hrest c (Eq.mp (congrArg (c ∈ ·) hchildren) hc)
      · refine hw.child i hi c ?_
        unfold TypeGraph.childrenOf at hc ⊢
        rwa [← w.graph.get?_add_of_ne hsize]
    have hv := hv.alive hbranched (hnew _ (Nat.le_refl _)) fun c hc => hbranched.members hrest hc
    rw [heq]
    exact ⟨hv, hv.resolve (hnew _ (Nat.le_refl _))⟩

theorem alive_relaxMembers (hw : w.Alive live) (hnew : ∀ i, w.graph.size ≤ i → live i)
    (hm : ∀ m ∈ members, live m.node) : (w.relaxMembers members).1.Alive live ∧
      ∀ m ∈ (w.relaxMembers members).2, live m.node := by
  induction members generalizing w with
  | nil => exact ⟨hw, nofun⟩
  | cons m rest ih =>
      obtain ⟨hfirst, hlive⟩ := alive_relaxMember hw hnew (hm m List.mem_cons_self)
      obtain ⟨hrest, hall⟩ := ih (w := (w.relaxMember m).1) hfirst
        (fun i hi => hnew i (Nat.le_trans (w.size_le_relaxMember m) hi))
        fun m' hm' => hm m' (List.mem_cons_of_mem _ hm')
      exact ⟨hrest, List.forall_mem_cons.2 ⟨hlive, hall⟩⟩

theorem alive_reduce (keep : Bool) (hw : w.Alive live) (hnew : ∀ i, w.graph.size ≤ i → live i)
    (hid : live id) : (w.reduce keep id).Alive live := by
  cases get : w.graph.get? id with
  | none =>
      have hself : w.reduce keep id = w := by
        unfold reduce
        rw [get]
      exact hself.symm ▸ hw
  | some node =>
      have hchildren : ∀ c ∈ (w.resolved node).kind.children, live c := by
        intro c hc
        rw [resolved, Kind.children_mapChildren] at hc
        obtain ⟨d, hd, rfl⟩ := List.mem_map.1 hc
        exact hw.resolve (hw.child_of_get hid get hd)
      have hfill : (w.fill id (w.resolved node)).Alive live := hw.fill hchildren
      rcases w.reduce_of_get? keep get with ⟨isUnion, cs, kind⟩ | ⟨members, supers, kind⟩ | heq
      · rw [reduce_combination get kind]
        refine (combined_reduceCombination ..).alive hw hid fun c hc => hw.members (fun d hd => ?_) hc
        exact hw.child_of_get hid get (by rwa [kind, Kind.children_combination])
      · have hkind : (w.resolved node).kind = .interface _ _ :=
          congrArg (Kind.mapChildren w.resolve) kind
        rw [hkind] at hchildren
        rw [reduce_interface get hkind]
        obtain ⟨halive, hlive⟩ := alive_relaxMembers hfill
          (fun i hi => hnew i (by rwa [fill, TypeGraph.size_fill] at hi)) fun m hm =>
            hchildren _ (List.mem_append_left _ (List.mem_map_of_mem (Stage.kept_subset hm)))
        refine halive.fill fun c hc => ?_
        rcases List.mem_append.1 hc with hc | hc
        · obtain ⟨m, hm, rfl⟩ := List.mem_map.1 hc
          exact hlive m hm
        · exact hchildren c (List.mem_append_right _ hc)
      · rw [heq]
        exact hfill

theorem alive_foldl (keep : Bool) {ids : List NodeId} (hw : w.Alive live)
    (hnew : ∀ i, w.graph.size ≤ i → live i) (hids : ∀ id ∈ ids, live id) :
    (ids.foldl (reduce keep) w).Alive live := by
  induction ids generalizing w with
  | nil => exact hw
  | cons id rest ih =>
      exact ih (alive_reduce keep hw hnew (hids id List.mem_cons_self))
        (fun i hi => hnew i (Nat.le_trans (w.size_le_reduce keep id) hi))
        fun i hi => hids i (List.mem_cons_of_mem _ hi)

theorem alive_settle (keep : Bool) (limit : Nat) (hw : w.Alive live)
    (hnew : ∀ i, w.graph.size ≤ i → live i) : (settle keep limit w).Alive live := by
  have hsweep := alive_foldl keep hw hnew hw.postorder
  induction limit generalizing w with
  | zero => exact hsweep
  | succ limit ih =>
      have hnew' : ∀ i, (w.sweep keep).graph.size ≤ i → live i := fun i hi =>
        hnew i (Nat.le_trans (w.size_le_foldl keep _) hi)
      simp only [settle]
      split
      · exact hsweep
      · exact ih hsweep hnew' (alive_foldl keep hsweep hnew' hsweep.postorder)

end Live

end Reduction

/-- A node of a simplified graph that had a slot before was reached before. -/
theorem TypeGraph.reaches_of_mem_order {g : TypeGraph} {keep : Bool} {id : NodeId}
    (h : id ∈ (Reduction.settle keep g.size ⟨g, []⟩).order) (hid : id < g.size) : g.Reaches id := by
  -- what is added counts as live, so nothing has to be known of children without slot
  have hstart : Reduction.Alive ⟨g, []⟩ fun i => g.Reaches i ∨ g.size ≤ i := by
    refine ⟨.inl .refl, fun i hi c hc => .inl ?_, fun _ _ hl => absurd hl List.not_mem_nil,
      fun _ _ hl => absurd hl List.not_mem_nil⟩
    rcases hi with hi | hi
    · exact hi.tail hc
    · rw [TypeGraph.childrenOf, TypeGraph.get?_eq_none_of_size_le _ hi] at hc
      cases hc
  have halive := Reduction.alive_settle keep g.size hstart fun i hi => .inr hi
  exact (halive.order id h).resolve_right (Nat.not_le.2 hid)

end Typewright
