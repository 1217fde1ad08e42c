import Mathlib
import Typewright.Proofs.TypeGraph.Done
import Typewright.Proofs.TypeGraph.Kept

/-!
# Normal form

Simplifying a built graph without cycles leaves each union and intersection with members in normal
form (`normalMembers_of_simplify`). A sweep comes to a node when its children are done, and a step
writes only into the slot of its node and new ones, so what is done before stays done. Fresh unions,
made for the members of an interface, are reduced at once. The last sweep thus leaves all that the
root leads to in normal form, and so it is under the numbers of the result.
-/

namespace Typewright

namespace Reduction

variable {w v : Reduction} {region : NodeId → Prop}
  {id a : NodeId} {node : Node} {isUnion : Bool} {children : List NodeId}

/-! ## Interfaces -/

/-- The slots that were there before, and those that are there after. -/
def Old (w v : Reduction) (i : NodeId) : Prop := i < w.graph.size ∨ v.graph.size ≤ i

/-- Relaxing a member whose type is done: the rest of its union is done at once. -/
theorem done_relaxMember {m : InterfaceMember} (hw : w.Contained)
    (hnew : ∀ i, w.graph.size ≤ i → region i) (hm : w.Done region m.node) :
    Retains (w.Old (w.relaxMember m).1) w (w.relaxMember m).1 ∧
      (w.relaxMember m).1.Done region (w.relaxMember m).2.node := by
  have hrefl : Retains (w.Old w) w w := ⟨Nat.le_refl _, rfl, fun _ _ => rfl, fun _ _ => rfl⟩
  unfold relaxMember
  split
  · exact ⟨hrefl, hm⟩
  · rename_i node get
    split
    · rename_i branches kind _
      dsimp only
      split
      · exact ⟨hrefl, hm⟩
      · set rest : Node :=
          { kind := .union (w.defined branches), comment := node.comment, key := node.key }
        set w₁ : Reduction := { w with graph := (w.graph.add rest).2 } with hw₁
        have hadd : Retains (· ≠ w.graph.size) w w₁ :=
          ⟨Nat.le_of_lt (by rw [hw₁, TypeGraph.size_add]; exact Nat.lt_succ_self _), rfl,
            fun _ hi => w.graph.get?_add_of_ne hi, fun _ _ => rfl⟩
        -- the new slot is not among those that are done before
        have hparts : ∀ c ∈ w.defined branches,
            w₁.Done (fun i => region i ∧ i ≠ w.graph.size) (w₁.resolve c) := by
          intro c hc
          have hpart := (Grounded.of_get? hm get).2 c (by rw [kind]; exact (List.mem_filter.1 hc).1)
          have hold : w.Done (fun i => region i ∧ i ≠ w.graph.size) c :=
            Done.weaken hpart fun i hi hlt => ⟨hi, Nat.ne_of_lt hlt⟩
          have hdone := hadd.done (fun i hi _ => hi.2) hold
          rwa [hdone.resolve_eq]
        have hsize : w₁.graph.size = w.graph.size + 1 := w.graph.size_add rest
        have hstep := handled_reduceCombination true rest
          (hsize ▸ Nat.lt_succ_self _) (show w₁.Free w.graph.size from hw _ (Nat.le_refl _))
          (fun h => h.2 rfl) hparts
        have hold : ∀ i,
            w.Old (w₁.reduceCombination w.graph.size true rest (w.defined branches)) i →
              i ≠ w.graph.size := by
          rintro i (hlt | hle)
          · exact Nat.ne_of_lt hlt
          · rw [size_reduceCombination, hsize] at hle
            exact Nat.ne_of_gt hle
        refine ⟨hadd.trans hstep.1 hold hold, ?_⟩
        exact Done.weaken (Handled.resolve hstep.2) fun i hi _ =>
          hi.elim And.left fun heq => hnew i (Nat.le_of_eq heq.symm)
    · exact ⟨hrefl, hm⟩

theorem done_relaxMembers {members : List InterfaceMember} (hw : w.Contained)
    (hnew : ∀ i, w.graph.size ≤ i → region i) (hm : ∀ m ∈ members, w.Done region m.node) :
    Retains (w.Old (w.relaxMembers members).1) w (w.relaxMembers members).1 ∧
      ∀ m ∈ (w.relaxMembers members).2, (w.relaxMembers members).1.Done region m.node := by
  induction members generalizing w with
  | nil => exact ⟨⟨Nat.le_refl _, rfl, fun _ _ => rfl, fun _ _ => rfl⟩, nofun⟩
  | cons m rest ih =>
      obtain ⟨hfirst, hdone⟩ := done_relaxMember hw hnew (hm m List.mem_cons_self)
      have hold : ∀ i, region i → i < w.graph.size → w.Old (w.relaxMember m).1 i :=
        fun _ _ hlt => .inl hlt
      obtain ⟨hrest, hall⟩ := ih (w := (w.relaxMember m).1)
        (hfirst.contained hw fun i hi => .inr hi) (fun i hi => hnew i (Nat.le_trans hfirst.size hi))
        fun m' hm' => hfirst.done hold (hm m' (List.mem_cons_of_mem _ hm'))
      refine ⟨hfirst.trans hrest (fun i hi => ?_) fun i hi => ?_, List.forall_mem_cons.2 ⟨?_, hall⟩⟩
      · exact hi.imp_right fun hle => Nat.le_trans hrest.size hle
      · exact hi.imp_left fun hlt => Nat.lt_of_lt_of_le hlt hfirst.size
      · exact hrest.done (fun _ _ hlt => .inl hlt) hdone

/-- A step at an interface whose members and supers are done. -/
theorem handled_relaxMembers {node' n : Node} {members members' : List InterfaceMember}
    {supers : List NodeId} (hv : (w.fill id node').relaxMembers members = (v, members'))
    (kind : n.kind = .interface members' supers) (hlt : id < w.graph.size) (free : w.Free id)
    (hw : w.Contained) (hid : ¬ region id) (hnew : ∀ i, w.graph.size ≤ i → region i)
    (hm : ∀ m ∈ members, w.Done region m.node) (hs : ∀ s ∈ supers, w.Done region s) :
    Retains (fun i => i ≠ id ∧ w.Old (v.fill id n) i) w (v.fill id n) ∧
      (v.fill id n).Handled (fun i => region i ∨ i = id) id := by
  have hfirst := retains_fill w id node'
  have hne : ∀ i, region i → i < w.graph.size → i ≠ id := fun i hi _ heq => hid (heq ▸ hi)
  have hsize : (w.fill id node').graph.size = w.graph.size := w.graph.size_fill id node'
  obtain ⟨hsecond, hdone⟩ := done_relaxMembers (w := w.fill id node')
    (fun i hi => hw i (hsize ▸ hi)) (fun i hi => hnew i (hsize ▸ hi))
    fun m hmem => hfirst.done hne (hm m hmem)
  rw [hv] at hsecond hdone
  have hlt' : id < (w.fill id node').graph.size := hsize.symm ▸ hlt
  have hthird := retains_fill v id n
  refine ⟨(hfirst.trans hsecond (fun i hi => hi.1) fun i hi => ?_).trans hthird (fun _ hi => hi)
    fun _ hi => hi.1, ?_⟩
  · rw [Old, hsize]
    exact hi.2.imp_right fun hle => Nat.le_trans hthird.size hle
  · refine handled_fill (Nat.lt_of_lt_of_le hlt' hsecond.size)
      ((hsecond.free (.inl hlt')).2 free) hid (fun c hc => ?_) fun isUnion cs hkind => ?_
    · rw [kind] at hc
      rcases List.mem_append.1 hc with hc | hc
      · obtain ⟨m, hmem, rfl⟩ := List.mem_map.1 hc
        exact hdone m hmem
      · exact hsecond.done (fun _ _ hlt => .inl hlt) (hfirst.done hne (hs c hc))
    · rw [kind] at hkind
      cases isUnion <;> cases hkind

/-! ## Steps and sweeps -/

/-- A step at a node whose parts are done. -/
theorem handled_reduce (keep : Bool) (region : NodeId → Prop)
    (get : w.graph.get? id = some node) (free : w.Free id)
    (hw : w.Contained) (hid : ¬ region id) (hnew : ∀ i, w.graph.size ≤ i → region i)
    (hc : ∀ c ∈ node.kind.children, w.Done region (w.resolve c)) :
    Retains (fun i => i ≠ id ∧ w.Old (w.reduce keep id) i) w (w.reduce keep id) ∧
      (w.reduce keep id).Handled (fun i => region i ∨ i = id) id := by
  have hlt := w.graph.lt_size_of_get? get
  have hresolved : ∀ c ∈ (w.resolved node).kind.children, w.Done region c := by
    intro c hmem
    rw [resolved, Kind.children_mapChildren] at hmem
    obtain ⟨d, hd, rfl⟩ := List.mem_map.1 hmem
    exact hc d hd
  by_cases hcombination : ∃ isUnion cs, node.kind = .combination isUnion cs
  · obtain ⟨isUnion, cs, kind⟩ := hcombination
    rw [kind, Kind.children_combination] at hc
    rw [reduce_combination get kind]
    obtain ⟨hretains, hhandled⟩ := handled_reduceCombination isUnion node hlt free
      hid hc
    exact ⟨hretains.mono fun _ hi => hi.1, hhandled⟩
  · have hnormal : w.NormalNode (w.resolved node) := fun isUnion cs kind => by
      obtain ⟨ds, kind, -⟩ := Kind.of_mapChildren_combination kind
      exact (hcombination ⟨isUnion, ds, kind⟩).elim
    rcases w.reduce_of_get? keep get with hcomb | ⟨members, supers, kind⟩ | heq
    · exact (hcombination hcomb).elim
    · have kind : (w.resolved node).kind = .interface _ _ :=
        congrArg (Kind.mapChildren w.resolve) kind
      have hchildren := congrArg Kind.children kind
      rw [reduce_interface get kind]
      refine handled_relaxMembers rfl rfl hlt free hw hid hnew (fun m hm => ?_) fun s hs => ?_
      · have hmem := Stage.kept_subset hm
        exact hresolved _ (hchildren ▸ List.mem_append_left _ (List.mem_map_of_mem hmem))
      · exact hresolved s (hchildren ▸ List.mem_append_right _ hs)
    · rw [heq]
      exact ⟨(retains_fill w id _).mono fun _ hi => hi.1,
        handled_fill hlt free hid hresolved hnormal⟩

/-- The steps at a list of nodes, where each comes after its children. -/
theorem handled_foldl (keep : Bool) (done rest : List NodeId) (hw : w.Contained)
    (hdone : ∀ a ∈ done, a < w.graph.size ∧ a ∉ rest ∧ w.Handled (· ∉ rest) a)
    (hrest : ∀ a ∈ rest, w.Free a ∧ ∃ node, w.graph.get? a = some node) (hnodup : rest.Nodup)
    (hfirst : Walk.NextFirst w.graph.childrenOf done rest) :
    Retains (fun i => i ∉ rest ∧ i < w.graph.size) w (rest.foldl (reduce keep) w) ∧
      ∀ a, a ∈ done ∨ a ∈ rest → (rest.foldl (reduce keep) w).Handled (fun _ => True) a := by
  induction rest generalizing w done with
  | nil =>
      refine ⟨⟨Nat.le_refl _, rfl, fun _ _ => rfl, fun _ _ => rfl⟩, fun a ha => ?_⟩
      exact Handled.weaken (hdone a (ha.resolve_right List.not_mem_nil)).2.2 fun _ _ _ => trivial
  | cons id rest ih =>
      obtain ⟨hid, hnodup⟩ := List.nodup_cons.1 hnodup
      obtain ⟨free, node, get⟩ := hrest id List.mem_cons_self
      have hlt := w.graph.lt_size_of_get? get
      have hbounded : ∀ a ∈ id :: rest, a < w.graph.size := fun a ha => by
        obtain ⟨_, hnode⟩ := (hrest a ha).2
        exact w.graph.lt_size_of_get? hnode
      obtain ⟨hstep, hhandled⟩ := handled_reduce keep (· ∉ id :: rest) get free hw
        (not_not.2 List.mem_cons_self)
        (fun i hi hmem => Nat.not_lt.2 hi (hbounded i hmem)) fun c hc => by
          have hmem := hfirst.1 c (by rwa [w.graph.childrenOf_eq get])
          exact (hdone c hmem).2.2.resolve
      set v := w.reduce keep id with hv
      have hothers : ∀ i, i ≠ id → i < w.graph.size → i ≠ id ∧ w.Old v i :=
        fun i hi hlt => ⟨hi, .inl hlt⟩
      have hlater : ∀ a ∈ rest, a ≠ id ∧ w.Old v a := fun a ha =>
        hothers a (fun heq => hid (heq ▸ ha)) (hbounded a (List.mem_cons_of_mem _ ha))
      have hcontained : v.Contained := hstep.contained hw fun i hi =>
        ⟨fun heq => Nat.not_lt.2 (Nat.le_trans hstep.size hi) (heq ▸ hlt), .inr hi⟩
      have hregion : ∀ i, i ∉ id :: rest ∨ i = id → i ∉ rest := by
        rintro i (hi | rfl) hmem
        · exact hi (List.mem_cons_of_mem _ hmem)
        · exact hid hmem
      have hdone' : ∀ a ∈ id :: done, a < v.graph.size ∧ a ∉ rest ∧ v.Handled (· ∉ rest) a := by
        refine List.forall_mem_cons.2 ⟨⟨Nat.lt_of_lt_of_le hlt hstep.size, hid,
          hhandled.weaken fun i hi _ => hregion i hi⟩, fun a ha => ?_⟩
        obtain ⟨halt, hmem, hah⟩ := hdone a ha
        have hne : ∀ i, i ∉ id :: rest → i ≠ id := fun i hi heq => hi (heq ▸ List.mem_cons_self)
        refine ⟨Nat.lt_of_lt_of_le halt hstep.size, hregion a (.inl hmem), ?_⟩
        exact (hstep.handled (fun i hi hlt => hothers i (hne i hi) hlt)
          (hothers a (hne a hmem) halt) hah).weaken fun i hi _ => hregion i (.inl hi)
      obtain ⟨hfold, hall⟩ := ih (id :: done) hcontained hdone'
        (fun a ha => by
          obtain ⟨hfree, hnode⟩ := hrest a (List.mem_cons_of_mem _ ha)
          exact ⟨(hstep.free (hlater a ha)).2 hfree, by rwa [hstep.get a (hlater a ha)]⟩) hnodup
        (hfirst.2.congr fun a ha => by
          rw [TypeGraph.childrenOf, TypeGraph.childrenOf, hstep.get a (hlater a ha)])
      refine ⟨hstep.trans hfold (fun i hi => ?_) fun i hi => ?_, fun a ha => hall a ?_⟩
      · exact hothers i (fun heq => hi.1 (heq ▸ List.mem_cons_self)) hi.2
      · exact ⟨hregion i (.inl hi.1), Nat.lt_of_lt_of_le hi.2 hstep.size⟩
      · rcases ha with ha | ha
        · exact .inl (List.mem_cons_of_mem _ ha)
        · rcases List.mem_cons.1 ha with heq | ha
          · exact .inl (heq ▸ List.mem_cons_self)
          · exact .inr ha

theorem Grounded.childrenOf_eq {P : NodeId → Node → Prop} (h : w.Grounded P a) :
    w.childrenOf a = w.graph.childrenOf a :=
  (List.map_congr_left fun _ hc => (h.refers hc).resolve_eq).trans (List.map_id' _)

theorem Grounded.of_mem_postorder {P : NodeId → Node → Prop}
    (h : w.Grounded P (w.resolve w.graph.root)) : ∀ a ∈ w.postorder, w.Grounded P a := by
  refine Walk.postorder_induction (fun s hs => ?_) fun a ha b hb => ?_
  · rw [List.mem_singleton.1 hs]
    exact h
  · rw [ha.childrenOf_eq] at hb
    exact ha.refers hb

/-- The nodes of a sweep come after their children. -/
theorem Grounded.nextFirst_postorder {P : NodeId → Node → Prop}
    (h : w.Grounded P (w.resolve w.graph.root)) :
    Walk.NextFirst w.graph.childrenOf [] w.postorder := by
  have hpath : ∀ {a b}, w.Grounded P a → Relation.TransGen (Walk.Next w.childrenOf) a b →
      Relation.TransGen w.graph.Refers a b ∧ w.Grounded P b := by
    intro a b ha hab
    induction hab with
    | single hb =>
        rw [Walk.Next, ha.childrenOf_eq] at hb
        exact ⟨.single hb, ha.refers hb⟩
    | tail _ hbc ih =>
        rw [Walk.Next, ih.2.childrenOf_eq] at hbc
        exact ⟨ih.1.tail hbc, ih.2.refers hbc⟩
  have hgrounded := h.of_mem_postorder
  have hfirst := w.belowFirst_postorder.nextFirst fun a ha hcycle =>
    (hgrounded a ha).not_transGen (hpath (hgrounded a ha) hcycle).1
  exact hfirst.congr fun a ha => (hgrounded a ha).childrenOf_eq.symm

end Reduction

namespace Stage

open Reduction (Done Contained)

variable {keep : Bool} {s : Stage}

theorem Oriented.contained (ho : s.Oriented) : s.work.Contained := fun i hi b hl => by
  obtain ⟨node, get, -⟩ := ho.source i b hl
  exact Nat.not_lt.2 hi (s.work.graph.lt_size_of_get? get)

/-- After a sweep over a built graph without cycles all that the root leads to is in normal form. -/
theorem done_sweep (keep : Bool) (hc : s.Closed) (hb : s.Bounded) (ho : s.Oriented)
    {P : NodeId → Node → Prop} (hg : s.work.Grounded P (s.work.resolve s.work.graph.root)) :
    (s.work.sweep keep).Done (fun _ => True)
      ((s.work.sweep keep).resolve (s.work.sweep keep).graph.root) := by
  have hrest : ∀ a ∈ s.work.postorder, s.work.Free a ∧ ∃ node, s.work.graph.get? a = some node := by
    intro a ha
    obtain ⟨node, get, -⟩ := (hg.of_mem_postorder a ha).exists_get?
    exact ⟨ho.postorder a ha, node, get⟩
  obtain ⟨hretains, hhandled⟩ := Reduction.handled_foldl keep [] s.work.postorder ho.contained
    (List.forall_mem_nil _) hrest (Walk.nodup_postorder (Walk.nodup_eraseDups _)) hg.nextFirst_postorder
  obtain ⟨t, ht⟩ := edits_sweep keep hc hb ho
  have hot := ho.edits ht.edits
  have hroot : s.work.resolve s.work.graph.root ∈ s.work.postorder :=
    Walk.mem_postorder_of_enter List.mem_cons_self
      (s.work.resolve_mem_mentioned s.work.graph.root_mem_mentioned)
  have hdone : (s.work.sweep keep).Handled (fun _ => True) (s.work.resolve s.work.graph.root) :=
    hhandled _ (.inr hroot)
  rw [show (s.work.sweep keep).graph.root = s.work.graph.root from hretains.root]
  cases hl : s.work.redirects.lookup s.work.graph.root with
  | none =>
      rw [(Reduction.free_iff.2 hl).resolve_eq] at hdone
      exact hdone.resolve
  | some b =>
      -- what a redirect leads to is named, so no step redirects it further
      have hleads := mem_of_lookup hl
      obtain ⟨node, get, hnamed⟩ := ho.target _ b hleads
      obtain ⟨name, hname⟩ := Option.isSome_iff_exists.1 hnamed
      obtain ⟨node', get', hname'⟩ := ht.edits.holds ⟨node, get, hname⟩
      have hfree : (s.work.sweep keep).Free b := ht.work ▸ hot.free get' (hname' ▸ rfl)
      have hkept : (s.work.sweep keep).redirects.lookup s.work.graph.root = some b := by
        refine (hretains.lookup _ ⟨fun hmem => ho.postorder _ hmem b hleads, ?_⟩).trans hl
        obtain ⟨_, hsource, -⟩ := ho.source _ b hleads
        exact s.work.graph.lt_size_of_get? hsource
      rw [Reduction.resolve_of_lookup hl (ho.free get hnamed)] at hdone
      have hb := hdone.resolve
      rw [hfree.resolve_eq] at hb
      rwa [Reduction.resolve_of_lookup hkept hfree]

/-- However many sweeps there are, after the last one all is in normal form. -/
theorem done_settle (keep : Bool) (limit : Nat) (hc : s.Closed) (hb : s.Bounded) (ho : s.Oriented)
    {P : NodeId → Node → Prop} (hg : s.work.Grounded P (s.work.resolve s.work.graph.root)) :
    (Reduction.settle keep limit s.work).Done (fun _ => True)
      ((Reduction.settle keep limit s.work).resolve
        (Reduction.settle keep limit s.work).graph.root) := by
  induction limit generalizing s P with
  | zero => exact done_sweep keep hc hb ho hg
  | succ limit ih =>
      have hdone := done_sweep keep hc hb ho hg
      obtain ⟨t, ht⟩ := edits_sweep keep hc hb ho
      simp only [Reduction.settle]
      split
      · exact hdone
      · rw [← ht.work] at hdone ⊢
        exact ih (hc.edits ht.edits) (hb.edits ht.edits) (ho.edits ht.edits) hdone

end Stage

/-! ## The result -/

namespace Reduction

variable {w : Reduction}

/-- The nodes of the result are in normal form before they are renumbered. -/
theorem done_of_mem_order (h : w.Done (fun _ => True) (w.resolve w.graph.root)) :
    ∀ a ∈ w.order, w.Done (· ∈ w.order) a := by
  have hall : ∀ a ∈ w.order, w.Done (fun _ => True) a := by
    refine w.order_induction h fun a node ha get c hc => ?_
    have hdone := (Grounded.of_get? ha get).2 c hc
    rwa [hdone.resolve_eq]
  intro a ha
  induction hall a ha with
  | @node a node get free holds children ih =>
      refine .node get free ⟨ha, holds.2⟩ fun c hc => ih c hc ?_
      rw [← (children c hc).resolve_eq]
      exact w.child_mem_order ha get hc

/-- The result holds these nodes under their new numbers. -/
theorem copies_result : w.Copies w.result
    (fun a node => a ∈ w.order ∧ w.NormalNode node) w.number where
  get a node ha get := by
    have hmem : w.resolve a ∈ w.order := by
      rw [ha.resolve_eq]
      exact Done.mem ha
    rw [get?_result hmem, ha.resolve_eq, get]
    rfl
  free _ _ _ hl := absurd hl List.not_mem_nil
  inj a b ha hb heq := by
    have hmem : w.resolve a ∈ w.order := by
      rw [ha.resolve_eq]
      exact Done.mem ha
    rwa [number_inj hmem, ha.resolve_eq, hb.resolve_eq] at heq

end Reduction

namespace TypeGraph

theorem Built.inside {g : TypeGraph} (h : g.Built) : g.Inside := by
  intro id hid c hc
  obtain ⟨node, get⟩ := h c (hid.tail hc)
  exact g.lt_size_of_get? get

/-- In a simplified graph that was built and without cycles the members of each union and
intersection are in normal form. -/
theorem normalMembers_of_simplify {g : TypeGraph} (hb : g.Built) (ha : g.Acyclic) (keep : Bool)
    {id : NodeId} {node : Node} {isUnion : Bool} {children : List NodeId}
    (hget : (g.simplify keep).get? id = some node)
    (hkind : node.kind = .combination isUnion children) :
    (g.simplify keep).NormalMembers (fun i => i) isUnion children := by
  obtain ⟨root, hroot⟩ := hb g.root .refl
  have hdone := Stage.done_settle keep g.size (Stage.closed_start g)
    (hb.inside.bounded_start (g.lt_size_of_get? hroot)) (Stage.oriented_start g) (ha.grounded hb)
  generalize hw : Reduction.settle keep g.size (Stage.start g).work = w at hdone
  have hcompact : g.simplify keep = w.compact := congrArg Reduction.compact hw
  rw [hcompact] at hget ⊢
  obtain ⟨i, old, hi, hold, rfl⟩ := w.get?_compact_eq_some hget
  obtain ⟨cs, kind, rfl⟩ := Kind.of_mapChildren_combination hkind
  obtain ⟨⟨-, hnormal⟩, hparts⟩ :=
    (Reduction.done_of_mem_order hdone i (List.mem_of_getElem? hi)).of_get? hold
  exact Reduction.copies_result.normalMembers
    (fun c hc => hparts c (by rwa [kind, Kind.children_combination])) (hnormal isUnion cs kind)

/-- A property that may be a string, a number or `undefined`, with the string in two places. -/
def nested : TypeGraph where
  nodes := #[
    some { kind := .interface [⟨"value", 1, true, false, false⟩] [], name := some "Root" },
    some { kind := .union [2, 3, 4] },
    some { kind := .union [3, 5] },
    some { kind := .string },
    some { kind := .customType "undefined" },
    some { kind := .number }]

/-- In this graph nodes refer to later ones only. -/
theorem lt_of_refers_nested {a b : NodeId} (h : nested.Refers a b) : a < b ∧ b < 6 := by
  have hall : ∀ i < 6, ∀ c ∈ nested.childrenOf i, i < c ∧ c < 6 := by decide
  by_cases hlt : a < 6
  · exact hall a hlt b h
  · rw [Refers, childrenOf, nested.get?_eq_none_of_size_le (Nat.not_lt.1 hlt)] at h
    cases h

theorem built_nested : nested.Built := by
  have hall : ∀ i < 6, (nested.get? i).isSome := by decide
  intro id hid
  cases hid with
  | refl => exact ⟨_, rfl⟩
  | tail _ hbc => exact Option.isSome_iff_exists.1 (hall id (lt_of_refers_nested hbc).2)

theorem acyclic_nested : nested.Acyclic := by
  have hlt : ∀ a b, Relation.TransGen nested.Refers a b → a < b := by
    intro a b h
    induction h with
    | single h => exact (lt_of_refers_nested h).1
    | tail _ h ih => exact Nat.lt_trans ih (lt_of_refers_nested h).1
  exact fun id _ h => Nat.lt_irrefl id (hlt id id h)

/-- The union inside of another one is flattened, and each type is there once. -/
theorem normalMembers_of_simplify_nested :
    nested.Built ∧ nested.Acyclic ∧
      (nested.simplify false).get? 1 = some { kind := .union [2, 3] } ∧
      (nested.simplify false).NormalMembers (fun i => i) true [2, 3] := by
  have hget : (nested.simplify false).get? 1 = some { kind := .union [2, 3] } := by cbv
  exact ⟨built_nested, acyclic_nested, hget,
    normalMembers_of_simplify built_nested acyclic_nested false hget rfl⟩

end TypeGraph

end Typewright
