import Typewright.Proofs.Build.Graph
import Typewright.Proofs.TypeGraph.Idempotent
import Typewright.Proofs.TypeGraph.NormalForm
import Typewright.Proofs.TypeGraph.Widening

/-!
# Graphs that one sweep settles

A sweep comes to a union or an intersection that does not lead back to itself when all below it is
done. What is below stays as it is in the steps that follow, so what is left of the members stays in
normal form and a second step would change nothing. Where this holds of every union and intersection,
and no text stands for the absent value, one sweep is enough (`settled_sweep`) and simplifying again
changes nothing (`simplify_simplify_of_straight`). Arrays, tuples, enums and interfaces may lead back
to themselves, so recursive types are among these graphs.
-/

namespace Typewright

namespace Reduction

variable {keep : Bool} {w v : Reduction} {id : NodeId} {node : Node} {isUnion : Bool}
  {cs : List NodeId} {members : List InterfaceMember} {P S : NodeId → Prop}

/-! ## Nodes whose step changes nothing -/

/-- A node that a step leaves as it is if none of its children is redirected. -/
structure Still (keep : Bool) (w : Reduction) (node : Node) : Prop where
  normal : w.NormalNode node
  /-- A combination with a single member is named or has a comment. -/
  marked : ∀ isUnion m, node.kind = .combination isUnion [m] →
    node.name.isSome ∨ node.comment.isSome
  /-- An interface has no more members than count. -/
  kept : ∀ members supers, node.kind = .interface members supers →
    Reduction.kept keep members = members

theorem resolved_eq_self (h : ∀ c ∈ node.kind.children, w.Free c) : w.resolved node = node :=
  congrArg (fun kind => { node with kind }) (Kind.mapChildren_eq_self fun c hc => (h c hc).resolve_eq)

theorem flatten_eq_self (h : w.graph.NormalMembers w.resolve isUnion cs) :
    w.flatten id isUnion cs = cs := by
  have hsingle : ∀ c ∈ cs, w.flatten id isUnion [c] = [c] := by
    intro c hc
    rw [flatten, List.flatMap_singleton]
    split
    · rfl
    · rename_i node get
      have hstays : dissolves isUnion node = false := by
        rw [← Bool.not_eq_true, dissolves_iff]
        rintro ⟨hname, hcomment, hkind⟩
        exact h.flat c hc node get hname hcomment _ hkind
      rw [hstays, Bool.and_false, if_neg Bool.false_ne_true]
  have hflatten : w.flatten id isUnion cs = cs.flatMap fun c => w.flatten id isUnion [c] := by
    simp [flatten]
  rw [hflatten, List.flatMap_congr hsingle, List.flatMap_singleton']

theorem dropDuplicates_eq_self {seen : List String} {ids : List NodeId}
    (hnodup : (ids.map (w.graph.fingerprint w.resolve)).Nodup)
    (hseen : ∀ i ∈ ids, w.graph.fingerprint w.resolve i ∉ seen) : w.dropDuplicates seen ids = ids := by
  induction ids generalizing seen with
  | nil => rfl
  | cons i rest ih =>
      obtain ⟨hi, hrest⟩ := List.nodup_cons.1 hnodup
      rw [dropDuplicates, if_neg (hseen i List.mem_cons_self)]
      refine congrArg _ (ih hrest fun j hj hmem => ?_)
      rcases List.mem_cons.1 hmem with heq | hmem
      · exact hi (heq ▸ List.mem_map_of_mem hj)
      · exact hseen j (List.mem_cons_of_mem _ hj) hmem

theorem members_eq_self (hfree : ∀ c ∈ cs, w.Free c)
    (h : w.graph.NormalMembers w.resolve isUnion cs) : w.members id isUnion cs = cs := by
  have hresolve : cs.map w.resolve = cs :=
    (List.map_congr_left fun c hc => (hfree c hc).resolve_eq).trans (List.map_id' _)
  rw [members, hresolve, flatten_eq_self h]
  exact dropDuplicates_eq_self h.distinct fun _ _ => List.not_mem_nil

theorem Still.reduceCombination_eq_self (h : w.Still keep node) (hfree : ∀ c ∈ cs, w.Free c)
    (get : w.graph.get? id = some node) (kind : node.kind = .combination isUnion cs) :
    w.reduceCombination id isUnion node cs = w := by
  have hnormal := h.normal isUnion cs kind
  have hcombined := w.combined_reduceCombination id isUnion node cs
  rw [members_eq_self hfree hnormal] at hcombined
  generalize w.reduceCombination id isUnion node cs = v at hcombined ⊢
  cases hcombined with
  | @absorb m mem any =>
      rw [isAny] at any
      split at any
      · rename_i child hchild
        exact absurd (beq_iff_eq.1 any) (hnormal.any m mem child hchild)
      · cases any
  | combine => exact fill_eq_self (by rw [get, ← kind])
  | copy single _ _ member unnamed =>
      obtain ⟨child, hchild, hname⟩ := hnormal.single _ single
      obtain rfl := Option.some.inj (member.symm.trans hchild)
      rw [unnamed] at hname
      cases hname
  | redirect single _ _ _ _ unnamed bare =>
      have hmarked := h.marked isUnion _ (single ▸ kind)
      rw [unnamed, bare] at hmarked
      cases hmarked <;> contradiction

theorem relaxMembers_eq_self (h : ∀ m ∈ members, ¬ w.OffersUndefined m.node) :
    w.relaxMembers members = (w, members) := by
  induction members with
  | nil => rfl
  | cons m rest ih =>
      obtain ⟨hm, hrest⟩ := List.forall_mem_cons.1 h
      rw [relaxMembers, (w.relaxMember_eq m).resolve_right fun hoffers => hm hoffers.1]
      dsimp only
      rw [ih hrest]

/-- A step at a node that is no combination, where no member is relaxed, follows its children and
drops the members that do not count. -/
theorem reduce_eq_fill (keep : Bool) (get : w.graph.get? id = some node)
    (hnot : ∀ isUnion cs, node.kind ≠ .combination isUnion cs)
    (hoffers : ∀ c ∈ node.kind.children,
      ¬ (w.fill id (w.resolved node)).OffersUndefined (w.resolve c)) :
    (∃ members supers, (w.resolved node).kind = .interface members supers ∧
      w.reduce keep id = w.fill id { node with kind := .interface (kept keep members) supers }) ∨
    (∀ members supers, node.kind ≠ .interface members supers) ∧
      w.reduce keep id = w.fill id (w.resolved node) := by
  by_cases hinterface : ∃ members supers, node.kind = .interface members supers
  · obtain ⟨members, supers, kind⟩ := hinterface
    have hkind : (w.resolved node).kind = .interface _ _ := congrArg (Kind.mapChildren w.resolve) kind
    refine .inl ⟨_, _, hkind, ?_⟩
    rw [reduce_interface get hkind, relaxMembers_eq_self fun m hm => ?_, fill_fill]
    obtain ⟨m', hm', rfl⟩ := List.mem_map.1 (Stage.kept_subset hm)
    refine hoffers m'.node ?_
    rw [kind]
    exact List.mem_append_left _ (List.mem_map_of_mem hm')
  · have hinterface : ∀ members supers, node.kind ≠ .interface members supers :=
      fun members supers kind => hinterface ⟨members, supers, kind⟩
    rcases w.reduce_of_get? keep get with ⟨isUnion, cs, kind⟩ | ⟨members, supers, kind⟩ | heq
    · exact absurd kind (hnot isUnion cs)
    · exact absurd kind (hinterface members supers)
    · exact .inr ⟨hinterface, heq⟩

theorem Still.reduce_eq_self (h : w.Still keep node) (get : w.graph.get? id = some node)
    (hfree : ∀ c ∈ node.kind.children, w.Free c)
    (hoffers : ∀ c ∈ node.kind.children, ¬ w.OffersUndefined c) : w.reduce keep id = w := by
  have hresolved := resolved_eq_self hfree
  by_cases hcombination : ∃ isUnion cs, node.kind = .combination isUnion cs
  · obtain ⟨isUnion, cs, kind⟩ := hcombination
    rw [kind, Kind.children_combination] at hfree
    rw [reduce_combination get kind]
    exact h.reduceCombination_eq_self hfree get kind
  · have hnot : ∀ isUnion cs, node.kind ≠ .combination isUnion cs :=
      fun isUnion cs kind => hcombination ⟨isUnion, cs, kind⟩
    have hfilled : w.fill id (w.resolved node) = w := by
      rw [hresolved]
      exact fill_eq_self get
    have hoffers' : ∀ c ∈ node.kind.children,
        ¬ (w.fill id (w.resolved node)).OffersUndefined (w.resolve c) := by
      intro c hc
      rw [hfilled, (hfree c hc).resolve_eq]
      exact hoffers c hc
    rcases reduce_eq_fill keep get hnot hoffers' with ⟨members, supers, kind, heq⟩ | ⟨-, heq⟩
    · rw [hresolved] at kind
      rw [heq, h.kept members supers kind, ← kind]
      exact fill_eq_self get
    · exact heq.trans hfilled

/-! ## Sets that steps leave alone -/

/-- Fingerprints are the same where a set of nodes that lead to one another alone stays. -/
theorem Tidy.fingerprintFrom_eq (h : w.Tidy S) (hr : Retains P w v) (hP : ∀ a, S a → P a)
    {a : NodeId} (ha : S a) (fresh : List NodeId) (top : Bool) :
    v.graph.fingerprintFrom v.resolve fresh top a =
      w.graph.fingerprintFrom w.resolve fresh top a := by
  -- each step down takes a node out of `fresh`
  induction hn : fresh.length using Nat.strongRecOn generalizing fresh top a with
  | _ n ih =>
      have hw := (h.free a ha).resolve_eq
      have hv := ((hr.free (hP a ha)).2 (h.free a ha)).resolve_eq
      obtain ⟨node, get, -, hparts⟩ := h.node a ha
      have hget : w.graph.get? (w.resolve a) = some node := by rwa [hw]
      have hget' : v.graph.get? (v.resolve a) = some node := by rwa [hv, hr.get a (hP a ha)]
      by_cases hname : top = true ∨ node.name = none
      · rw [fingerprintFrom_of_get? w.resolve hget hname, fingerprintFrom_of_get? v.resolve hget' hname,
          hw, hv]
        split
        · rename_i hmem
          have hlt := Walk.length_erase_lt_of_mem hmem
          refine congrArg _ (List.map_congr_left fun c hc => ?_)
          exact ih _ (hn ▸ hlt) (hparts c hc) _ false rfl
        · rfl
      · obtain ⟨htop, hsome⟩ := not_or.1 hname
        obtain rfl := Bool.eq_false_of_not_eq_true htop
        obtain ⟨name, hname⟩ := Option.ne_none_iff_exists'.1 hsome
        rw [fingerprintFrom_of_name w.resolve hget hname,
          fingerprintFrom_of_name v.resolve hget' hname]

/-- A node stays in normal form where its parts stay as they are. -/
theorem Tidy.normalNode (h : w.Tidy S) (hr : Retains P w v) (hP : ∀ a, S a → P a)
    (hsize : v.graph.size = w.graph.size) (hc : ∀ c ∈ node.kind.children, S c)
    (hn : w.NormalNode node) : v.NormalNode node := by
  intro isUnion cs kind
  have hmem : ∀ c ∈ cs, S c := fun c hmem => hc c (by rwa [kind, Kind.children_combination])
  have hmembers : v.graph.NormalMembers v.resolve isUnion (cs.map fun c => c) := by
    refine (hn isUnion cs kind).map (fun c hc => ?_) fun c hc => ?_
    · obtain ⟨child, get, -⟩ := h.node c (hmem c hc)
      refine ⟨child, get, ?_⟩
      rw [hr.get c (hP c (hmem c hc)), get, Kind.mapChildren_eq_self fun _ _ => rfl]
    · rw [TypeGraph.fingerprint, TypeGraph.fingerprint, hsize]
      exact h.fingerprintFrom_eq hr hP (hmem c hc) _ true
  rwa [List.map_id'] at hmembers

theorem offersUndefined_of_fill {node' : Node} (hdefined : node'.kind.Defined)
    (hnot : ∀ cs, node'.kind ≠ .union cs) {a : NodeId}
    (h : (w.fill id node').OffersUndefined a) : w.OffersUndefined a := by
  by_cases hlt : id < w.graph.size
  · obtain ⟨node, branches, get, hname, kind, b, hb, hundef⟩ := h
    rw [fill, w.graph.get?_fill hlt] at get
    split at get
    · obtain rfl := Option.some.inj get
      exact absurd kind (hnot branches)
    · refine ⟨node, branches, get, hname, kind, b, hb, ?_⟩
      by_cases hid : b = id
      · rw [isUndefined_of_defined fun child get => ?_] at hundef
        · cases hundef
        · rw [hid, fill, w.graph.get?_fill_self hlt] at get
          exact Option.some.inj get ▸ hdefined
      · rwa [isUndefined, fill, w.graph.get?_fill_of_ne hid] at hundef
  · rwa [fill, TypeGraph.fill_of_size_le _ (Nat.not_lt.1 hlt)] at h

end Reduction

namespace TypeGraph

/-- A slot holds a union or an intersection. -/
def IsCombination (g : TypeGraph) (id : NodeId) : Prop :=
  ∃ node isUnion cs, g.get? id = some node ∧ node.kind = .combination isUnion cs

/-- No union and no intersection that the root leads to leads back to itself. -/
def Straight (g : TypeGraph) : Prop :=
  ∀ id, g.Reaches id → g.IsCombination id → ¬ Relation.TransGen g.Refers id id

end TypeGraph

namespace Reduction

variable {keep : Bool} {g : TypeGraph} {done : List NodeId} {w v : Reduction} {id a c : NodeId}
  {node : Node}

/-! ## Steps of a first sweep -/

/-- What a reduced node `a` may refer to, where `done` are the nodes reduced so far: a node that
was below `a` before, and is done or is no combination. -/
structure Part (g : TypeGraph) (done : List NodeId) (w : Reduction) (a c : NodeId) : Prop where
  free : w.Free c
  below : Relation.TransGen g.Refers a c
  done : c ∈ done ∨ ¬ g.IsCombination c

/-- What is in the slot of a node `a` of `g` that a sweep has reduced. -/
structure Reduced (keep : Bool) (g : TypeGraph) (done : List NodeId) (w : Reduction) (a : NodeId)
    (node : Node) : Prop where
  still : w.Still keep node
  parts : ∀ c ∈ node.kind.children, w.Part g done a c
  defined : node.kind.Defined
  combination : ∀ isUnion cs, node.kind = .combination isUnion cs → g.IsCombination a

/-- A first sweep over `g` that has reduced the nodes `done`. -/
structure Swept (keep : Bool) (g : TypeGraph) (done : List NodeId) (w : Reduction) : Prop where
  size : w.graph.size = g.size
  root : w.graph.root = g.root
  /-- The other slots are as they were. -/
  todo : ∀ a, a ∉ done → w.graph.get? a = g.get? a ∧ w.Free a
  /-- A node below a combination may stand for it. -/
  leads : ∀ a b, w.redirects.lookup a = some b →
    g.IsCombination a ∧ Relation.TransGen g.Refers a b ∧ b ∈ done ∧ w.Free b
  /-- All below a combination is done before it. -/
  below : ∀ a ∈ done, g.IsCombination a → ∀ b, Relation.TransGen g.Refers a b → b ∈ done
  reduced : ∀ a ∈ done, w.Free a →
    ∃ node, w.graph.get? a = some node ∧ w.Reduced keep g done a node

theorem swept_start (keep : Bool) (g : TypeGraph) : Swept keep g [] ⟨g, []⟩ where
  size := rfl
  root := rfl
  todo _ _ := ⟨rfl, fun _ => List.not_mem_nil⟩
  leads _ _ hl := nomatch hl
  below _ ha := absurd ha List.not_mem_nil
  reduced _ ha := absurd ha List.not_mem_nil

/-- The nodes below a combination are in normal form once they are done. -/
theorem Swept.tidy (h : Swept keep g done w)
    (hbelow : ∀ b, Relation.TransGen g.Refers a b → b ∈ done) :
    w.Tidy fun b => b ∈ done ∧ w.Free b ∧ Relation.TransGen g.Refers a b where
  free _ hb := hb.2.1
  node b hb := by
    obtain ⟨node, get, hreduced⟩ := h.reduced b hb.1 hb.2.1
    refine ⟨node, get, hreduced.still.normal, fun c hc => ?_⟩
    have hpart := hreduced.parts c hc
    have hac := hb.2.2.trans hpart.below
    exact ⟨hbelow c hac, hpart.free, hac⟩

/-- Where redirects lead. -/
theorem Swept.exists_lead (h : Swept keep g done w) (hfree : ¬ w.Free a) :
    Relation.TransGen g.Refers a (w.resolve a) ∧ w.resolve a ∈ done ∧ w.Free (w.resolve a) := by
  obtain ⟨b, hl⟩ := Option.ne_none_iff_exists'.1 (mt free_iff.2 hfree)
  obtain ⟨-, hab, hb, hfree⟩ := h.leads a b hl
  rw [resolve_of_lookup hl hfree]
  exact ⟨hab, hb, hfree⟩

theorem Swept.resolve_child (h : Swept keep g done w) (hs : g.Straight) (hid : g.Reaches id)
    (hwalk : Walk.Below g.childrenOf done id) (hc : g.Refers id c) :
    w.Part g done id (w.resolve c) := by
  by_cases hfree : w.Free c
  · -- a child that is not done leads back to the node, as a combination would not
    rw [hfree.resolve_eq]
    refine ⟨hfree, .single hc, (hwalk.near c hc).imp_right fun hback hcombines => ?_⟩
    exact hs c (hid.tail hc) hcombines (.tail' hback hc)
  · obtain ⟨hcb, hb, hfree⟩ := h.exists_lead hfree
    exact ⟨hfree, .head hc hcb, .inl hb⟩

/-- No step relaxes a member: a union that is done has no branch `undefined`. -/
theorem Swept.not_offersUndefined (h : Swept keep g done w) (hc : w.Part g done a c) :
    ¬ w.OffersUndefined c := by
  rintro ⟨node, branches, get, -, kind, b, hb, hundef⟩
  by_cases hdone : c ∈ done
  · obtain ⟨node', get', hreduced⟩ := h.reduced c hdone hc.free
    obtain rfl := Option.some.inj (get.symm.trans get')
    have hpart := hreduced.parts b (by rwa [kind])
    have hbdone := h.below c hdone (hreduced.combination true branches kind) b hpart.below
    obtain ⟨child, hchild, hb⟩ := h.reduced b hbdone hpart.free
    have hdefined : w.isUndefined b = false := isUndefined_of_defined fun child' hchild' =>
      Option.some.inj (hchild.symm.trans hchild') ▸ hb.defined
    rw [hdefined] at hundef
    cases hundef
  · exact hc.done.resolve_left hdone ⟨node, true, branches, (h.todo c hdone).1 ▸ get, kind⟩

section Step

variable (h : Swept keep g done w) (hr : Retains (· ≠ id) w v)
  (hsize : v.graph.size = w.graph.size) (hid : id ∉ done)

include h hr hsize hid in
/-- A reduced node stays so in a step at another one. -/
theorem Reduced.cons (hfree : v.Free id ∨ g.IsCombination id)
    (hbelow : g.IsCombination a → ∀ b, Relation.TransGen g.Refers a b → b ∈ done)
    (hreduced : w.Reduced keep g done a node) : v.Reduced keep g (id :: done) a node where
  still := by
    refine ⟨fun isUnion cs kind => ?_, hreduced.still.marked, hreduced.still.kept⟩
    have hall := hbelow (hreduced.combination isUnion cs kind)
    refine (h.tidy hall).normalNode hr (fun b hb heq => hid (heq ▸ hb.1)) hsize (fun c hc => ?_)
      hreduced.still.normal isUnion cs kind
    have hpart := hreduced.parts c hc
    exact ⟨hall c hpart.below, hpart.free, hpart.below⟩
  parts c hc := by
    have hpart := hreduced.parts c hc
    refine ⟨?_, hpart.below, hpart.done.imp_left (List.mem_cons_of_mem _)⟩
    -- a part that is reduced only now is no combination, so no step redirects it
    rcases eq_or_ne c id with rfl | hne
    · exact hfree.resolve_right (hpart.done.resolve_left hid)
    · exact (hr.free hne).2 hpart.free
  defined := hreduced.defined
  combination := hreduced.combination

include h hr hsize hid in
/-- A step that reduces its node, or lets a node below stand for it. -/
theorem Swept.cons
    (hbelow : g.IsCombination id → ∀ b, Relation.TransGen g.Refers id b → b ∈ done)
    (hnew : (v.Free id ∧ ∃ node, v.graph.get? id = some node ∧ w.Reduced keep g done id node) ∨
      ∃ b, v.redirects.lookup id = some b ∧ g.IsCombination id ∧
        Relation.TransGen g.Refers id b ∧ b ∈ done ∧ w.Free b) :
    Swept keep g (id :: done) v := by
  have hfree : v.Free id ∨ g.IsCombination id :=
    hnew.imp (fun hnew => hnew.1) fun ⟨_, _, hcombines, _⟩ => hcombines
  have hne : ∀ {b}, b ∈ done → b ≠ id := fun hb heq => hid (heq ▸ hb)
  refine ⟨hsize.trans h.size, hr.root.trans h.root, fun a ha => ?_, fun a b hl => ?_,
    List.forall_mem_cons.2 ⟨fun hcombines b hb => List.mem_cons_of_mem _ (hbelow hcombines b hb),
      fun a ha hcombines b hb => List.mem_cons_of_mem _ (h.below a ha hcombines b hb)⟩,
    List.forall_mem_cons.2 ⟨fun hself => ?_, fun a ha hself => ?_⟩⟩
  · obtain ⟨hai, ha⟩ := not_or.1 (mt List.mem_cons.2 ha)
    rw [hr.get a hai, hr.free hai]
    exact h.todo a ha
  · have hlead : g.IsCombination a ∧ Relation.TransGen g.Refers a b ∧ b ∈ done ∧ w.Free b := by
      rcases eq_or_ne a id with rfl | hai
      · rcases hnew with ⟨hself, -⟩ | ⟨b', hl', hlead⟩
        · rw [free_iff.1 hself] at hl
          cases hl
        · obtain rfl := Option.some.inj (hl.symm.trans hl')
          exact hlead
      · exact h.leads a b (hr.lookup a hai ▸ hl)
    obtain ⟨hcombines, hab, hb, hfree⟩ := hlead
    exact ⟨hcombines, hab, List.mem_cons_of_mem _ hb, (hr.free (hne hb)).2 hfree⟩
  · rcases hnew with ⟨-, node, get, hreduced⟩ | ⟨b, hl, -⟩
    · exact ⟨node, get, .cons h hr hsize hid hfree hbelow hreduced⟩
    · rw [free_iff.1 hself] at hl
      cases hl
  · obtain ⟨node, get, hreduced⟩ := h.reduced a ha ((hr.free (hne ha)).1 hself)
    have hreduced' := Reduced.cons h hr hsize hid hfree (h.below a ha) hreduced
    exact ⟨node, (hr.get a (hne ha)).trans get, hreduced'⟩

end Step

theorem Swept.fill (h : Swept keep g done w) (hlt : id < g.size) (hid : id ∉ done)
    (hbelow : g.IsCombination id → ∀ b, Relation.TransGen g.Refers id b → b ∈ done)
    (hreduced : w.Reduced keep g done id node) : Swept keep g (id :: done) (w.fill id node) := by
  refine h.cons (w.retains_fill id node) (w.graph.size_fill id node) hid hbelow
    (.inl ⟨(h.todo id hid).2, node, w.graph.get?_fill_self ?_, hreduced⟩)
  rwa [h.size]

theorem reduced_of_not_combination (hnot : ∀ isUnion cs, node.kind ≠ .combination isUnion cs)
    (hkept : ∀ members supers, node.kind = .interface members supers → kept keep members = members)
    (hparts : ∀ c ∈ node.kind.children, w.Part g done id c) (hdefined : node.kind.Defined) :
    w.Reduced keep g done id node where
  still := ⟨fun isUnion cs kind => absurd kind (hnot isUnion cs),
    fun isUnion m kind => absurd kind (hnot isUnion [m]), hkept⟩
  parts := hparts
  defined := hdefined
  combination isUnion cs kind := absurd kind (hnot isUnion cs)

/-- A step at a combination below which all is done. -/
theorem Swept.reduceCombination (h : Swept keep g done w) (hs : g.Straight) (hreach : g.Reaches id)
    (hid : id ∉ done) (hwalk : Walk.Below g.childrenOf done id) (get : g.get? id = some node)
    {isUnion : Bool} {cs : List NodeId} (kind : node.kind = .combination isUnion cs) :
    Swept keep g (id :: done) (w.reduceCombination id isUnion node cs) := by
  have hcombines : g.IsCombination id := ⟨node, isUnion, cs, get, kind⟩
  have hall := hwalk.far (hs id hreach hcombines)
  have hlt := g.lt_size_of_get? get
  have htidy := h.tidy hall
  have hresolve : ∀ c ∈ cs, w.resolve c ∈ done ∧ w.Free (w.resolve c) ∧
      Relation.TransGen g.Refers id (w.resolve c) := by
    intro c hc
    have hrefers : g.Refers id c := by
      rwa [TypeGraph.Refers, g.childrenOf_eq get, kind, Kind.children_combination]
    have hpart := h.resolve_child hs hreach hwalk hrefers
    exact ⟨hall _ hpart.below, hpart.free, hpart.below⟩
  -- so what is left of the members is below the node as well
  have hmembers := htidy.members id isUnion hresolve
  have hcombined := w.combined_reduceCombination id isUnion node cs
  generalize w.reduceCombination id isUnion node cs = v at hcombined ⊢
  cases hcombined with
  | absorb =>
      refine h.fill hlt hid (fun _ => hall) (reduced_of_not_combination (fun isUnion cs => ?_)
        (fun members supers hkind => ?_) (List.forall_mem_nil _)
        ⟨Kind.noConfusion, Kind.noConfusion⟩)
      · cases isUnion <;> exact Kind.noConfusion
      · cases hkind
  | combine any single =>
      refine h.fill hlt hid (fun _ => hall) ⟨⟨fun isUnion cs hkind => ?_, fun isUnion m hkind => ?_,
        fun members supers hkind => ?_⟩, fun c hc => ?_, Kind.defined_combination ..,
        fun _ _ _ => hcombines⟩
      · obtain ⟨rfl, rfl⟩ := Kind.combination_inj hkind
        exact htidy.normalMembers (fun hmem => hid hmem.1) hresolve any single
      · obtain ⟨rfl, heq⟩ := Kind.combination_inj hkind
        obtain ⟨hdone, hfree, -⟩ := hmembers m (heq ▸ List.mem_singleton_self m)
        obtain ⟨child, hchild, -⟩ := h.reduced m hdone hfree
        exact (single m child heq (fun heq => hid (heq ▸ hdone)) hchild).2
      · cases isUnion <;> cases hkind
      · rw [Kind.children_combination] at hc
        obtain ⟨hdone, hfree, hbelow⟩ := hmembers c hc
        exact ⟨hfree, hbelow, .inl hdone⟩
  | @copy only child single _ _ member unnamed =>
      obtain ⟨hdone, hfree, hbelow⟩ := hmembers only (single ▸ List.mem_singleton_self only)
      obtain ⟨child', hchild, hreduced⟩ := h.reduced only hdone hfree
      obtain rfl := Option.some.inj (member.symm.trans hchild)
      refine h.fill hlt hid (fun _ => hall) ⟨⟨hreduced.still.normal, fun isUnion m hkind => .inr ?_,
        hreduced.still.kept⟩, fun c hc => ?_, hreduced.defined, fun _ _ _ => hcombines⟩
      · -- the member is marked by its comment, as it has no name
        have hmarked := hreduced.still.marked isUnion m hkind
        rw [unnamed] at hmarked
        cases hcomment : node.comment with
        | none => exact hmarked.resolve_left Bool.false_ne_true
        | some => rfl
      · have hpart := hreduced.parts c hc
        exact ⟨hpart.free, hbelow.trans hpart.below, hpart.done⟩
  | @redirect only child single =>
      obtain ⟨hdone, hfree, hbelow⟩ := hmembers only (single ▸ List.mem_singleton_self only)
      exact h.cons (w.retains_redirect id only) rfl hid (fun _ => hall)
        (.inr ⟨only, List.lookup_cons_self, hcombines, hbelow, hdone, hfree⟩)

theorem kept_kept (keep : Bool) (members : List InterfaceMember) :
    kept keep (kept keep members) = kept keep members := by
  cases keep <;> simp [kept]

/-- A step at a node that is no combination. -/
theorem Swept.reduce_of_not_combination (h : Swept keep g done w) (hs : g.Straight)
    (hreach : g.Reaches id) (hid : id ∉ done) (hwalk : Walk.Below g.childrenOf done id)
    (get : g.get? id = some node) (hdefined : node.kind.Defined)
    (hnot : ∀ isUnion cs, node.kind ≠ .combination isUnion cs) :
    Swept keep g (id :: done) (w.reduce keep id) := by
  have get' : w.graph.get? id = some node := (h.todo id hid).1.trans get
  have hcombines : ¬ g.IsCombination id := fun ⟨node', isUnion, cs, get', kind⟩ =>
    hnot isUnion cs (Option.some.inj (get.symm.trans get') ▸ kind)
  have hresolve : ∀ c ∈ node.kind.children, w.Part g done id (w.resolve c) := fun c hc =>
    h.resolve_child hs hreach hwalk (by rwa [TypeGraph.Refers, g.childrenOf_eq get])
  have hparts : ∀ c ∈ (w.resolved node).kind.children, w.Part g done id c := by
    intro c hc
    rw [resolved, Kind.children_mapChildren] at hc
    obtain ⟨d, hd, rfl⟩ := List.mem_map.1 hc
    exact hresolve d hd
  have hnot' : ∀ isUnion cs, (w.resolved node).kind ≠ .combination isUnion cs := by
    intro isUnion cs kind
    obtain ⟨ds, kind, -⟩ := Kind.of_mapChildren_combination kind
    exact hnot isUnion ds kind
  have hdefined' : (w.resolved node).kind.Defined := hdefined.mapChildren _
  have hoffers : ∀ c ∈ node.kind.children,
      ¬ (w.fill id (w.resolved node)).OffersUndefined (w.resolve c) := fun c hc hoffers =>
    h.not_offersUndefined (hresolve c hc)
      (offersUndefined_of_fill hdefined' (fun cs => hnot' true cs) hoffers)
  rcases reduce_eq_fill keep get' hnot hoffers with
    ⟨members, supers, kind, heq⟩ | ⟨hinterface, heq⟩
  · rw [heq]
    refine h.fill (g.lt_size_of_get? get) hid (fun hc => absurd hc hcombines)
      (reduced_of_not_combination (fun isUnion cs kind => ?_) (fun members' supers' kind' => ?_)
        (fun c hc => hparts c ?_) ⟨Kind.noConfusion, Kind.noConfusion⟩)
    · cases isUnion <;> cases kind
    · obtain ⟨rfl, -⟩ := Kind.interface.inj kind'
      exact kept_kept keep members
    · rw [kind]
      rcases List.mem_append.1 hc with hc | hc
      · obtain ⟨m, hm, rfl⟩ := List.mem_map.1 hc
        exact List.mem_append_left _ (List.mem_map_of_mem (Stage.kept_subset hm))
      · exact List.mem_append_right _ hc
  · rw [heq]
    refine h.fill (g.lt_size_of_get? get) hid (fun hc => absurd hc hcombines)
      (reduced_of_not_combination hnot' (fun members supers kind => ?_) hparts hdefined')
    obtain ⟨members', supers', kind, -⟩ := Kind.of_mapChildren_interface kind
    exact absurd kind (hinterface members' supers')

/-! ## The whole sweep -/

theorem Swept.foldl (h : Swept keep g done w) (hb : g.Built) (hs : g.Straight)
    (hd : g.Definite g.Reaches) {rest : List NodeId} (hrest : ∀ a ∈ rest, g.Reaches a ∧ a ∉ done)
    (hnodup : rest.Nodup) (hwalk : Walk.BelowFirst g.childrenOf done rest) :
    Swept keep g (rest.reverse ++ done) (rest.foldl (reduce keep) w) := by
  induction rest generalizing w done with
  | nil => exact h
  | cons id rest ih =>
      obtain ⟨hreach, hid⟩ := hrest id List.mem_cons_self
      obtain ⟨hnot, hnodup⟩ := List.nodup_cons.1 hnodup
      obtain ⟨node, get⟩ := hb id hreach
      have hstep : Swept keep g (id :: done) (w.reduce keep id) := by
        by_cases hcombination : ∃ isUnion cs, node.kind = .combination isUnion cs
        · obtain ⟨isUnion, cs, kind⟩ := hcombination
          rw [reduce_combination ((h.todo id hid).1.trans get) kind]
          exact h.reduceCombination hs hreach hid hwalk.1 get kind
        · exact h.reduce_of_not_combination hs hreach hid hwalk.1 get (hd id node hreach get)
            fun isUnion cs kind => hcombination ⟨isUnion, cs, kind⟩
      have hall := ih hstep (fun a ha => ?_) hnodup hwalk.2
      · rwa [List.reverse_cons, List.append_assoc]
      · obtain ⟨hreach, hdone⟩ := hrest a (List.mem_cons_of_mem _ ha)
        refine ⟨hreach, fun hmem => ?_⟩
        rcases List.mem_cons.1 hmem with rfl | hmem
        · exact hnot ha
        · exact hdone hmem

/-- One sweep reduces all that the root leads to. -/
theorem swept_sweep (keep : Bool) (hb : g.Built) (hs : g.Straight) (hd : g.Definite g.Reaches) :
    ∃ done, Swept keep g done (sweep keep ⟨g, []⟩) ∧ ∀ a, g.Reaches a → a ∈ done := by
  have hchildren : childrenOf ⟨g, []⟩ = g.childrenOf := by
    funext a
    exact List.map_id _
  have hwalk := belowFirst_postorder ⟨g, []⟩
  rw [hchildren] at hwalk
  refine ⟨_, (swept_start keep g).foldl hb hs hd (fun a ha => ⟨?_, List.not_mem_nil⟩)
    (Walk.nodup_postorder (Walk.nodup_eraseDups _)) hwalk, fun a ha => ?_⟩
  · exact (Stage.closed_start g).postorder a ha
  · rw [List.append_nil, List.mem_reverse]
    refine mem_postorder_of_mem_order a ?_
    rwa [order_of_graph, g.mem_reachable_iff]

/-- After it no step changes anything. -/
theorem Swept.reduce_eq_self (h : Swept keep g done w) (hall : ∀ a, g.Reaches a → a ∈ done) :
    ∀ i ∈ w.order, w.reduce keep i = w := by
  have horder : ∀ i ∈ w.order, g.Reaches i ∧ w.Free i := by
    refine w.order_induction ?_ fun i node hi get c hc => ?_
    · rw [h.root]
      by_cases hfree : w.Free g.root
      · rw [hfree.resolve_eq]
        exact ⟨.refl, hfree⟩
      · obtain ⟨hlead, -, hfree⟩ := h.exists_lead hfree
        exact ⟨hlead.to_reflTransGen, hfree⟩
    · obtain ⟨node', get', hreduced⟩ := h.reduced i (hall i hi.1) hi.2
      obtain rfl := Option.some.inj (get.symm.trans get')
      have hpart := hreduced.parts c hc
      rw [hpart.free.resolve_eq]
      exact ⟨hi.1.trans hpart.below.to_reflTransGen, hpart.free⟩
  intro i hi
  obtain ⟨hreach, hfree⟩ := horder i hi
  obtain ⟨node, get, hreduced⟩ := h.reduced i (hall i hreach) hfree
  exact hreduced.still.reduce_eq_self get (fun c hc => (hreduced.parts c hc).free) fun c hc =>
    h.not_offersUndefined (hreduced.parts c hc)

end Reduction

/-! ## The result -/

namespace TypeGraph

theorem Built.root_lt {g : TypeGraph} (h : g.Built) : g.root < g.size := by
  obtain ⟨root, hroot⟩ := h g.root .refl
  exact g.lt_size_of_get? hroot

/-- One sweep is enough. -/
theorem settled_sweep {g : TypeGraph} (hb : g.Built) (hs : g.Straight) (hd : g.Definite g.Reaches)
    (keep : Bool) : (Reduction.sweep keep ⟨g, []⟩).Settled keep := by
  obtain ⟨done, hswept, hall⟩ := Reduction.swept_sweep keep hb hs hd
  exact Reduction.settled_of_reduce_eq_self (hswept.reduce_eq_self hall)

/-- Simplifying again changes nothing. -/
theorem simplify_simplify_of_straight {g : TypeGraph} (hb : g.Built) (hs : g.Straight)
    (hd : g.Definite g.Reaches) (hu : g.Unmarked) (keep : Bool) :
    (g.simplify keep).simplify keep = g.simplify keep := by
  have hsettled := settled_sweep hb hs hd keep
  have hclear := clear_settle hb.inside hu hb.root_lt keep
  have hsettle := Reduction.settle_eq_sweep hsettled g.size
  rw [hsettle] at hclear
  have hsimplify : g.simplify keep = (Reduction.sweep keep ⟨g, []⟩).compact :=
    congrArg Reduction.compact hsettle
  rw [hsimplify]
  exact hclear.simplify_compact hsettled

/-- Trees with a label, which hold a list of trees. -/
def forest : TypeGraph where
  nodes := #[
    some {
      kind := .interface
        [⟨"children", 1, true, false, false⟩, ⟨"label", 2, true, false, false⟩] []
      name := some "Tree" },
    some { kind := .array 0 },
    some { kind := .union [3, 4, 3] },
    some { kind := .string },
    some { kind := .number }]

theorem refers_forest {a b : NodeId} (h : forest.Refers a b) : b < 5 ∧ (2 ≤ a → a < b) := by
  have hall : ∀ i < 5, ∀ c ∈ forest.childrenOf i, c < 5 ∧ (2 ≤ i → i < c) := by decide
  by_cases hlt : a < 5
  · exact hall a hlt b h
  · rw [Refers, childrenOf, forest.get?_eq_none_of_size_le (Nat.not_lt.1 hlt)] at h
    cases h

theorem built_forest : forest.Built := by
  have hall : ∀ i < 5, (forest.get? i).isSome := by decide
  intro id hid
  cases hid with
  | refl => exact ⟨_, rfl⟩
  | tail _ hbc => exact Option.isSome_iff_exists.1 (hall id (refers_forest hbc).1)

/-- The union is not on the cycle of the trees. -/
theorem straight_forest : forest.Straight := by
  have hlt : ∀ a b, Relation.TransGen forest.Refers a b → 2 ≤ a → a < b := by
    intro a b h ha
    induction h with
    | single h => exact (refers_forest h).2 ha
    | tail _ h ih => exact Nat.lt_trans ih ((refers_forest h).2 (Nat.le_trans ha (Nat.le_of_lt ih)))
  rintro id - ⟨node, isUnion, cs, get, kind⟩ hcycle
  refine Nat.lt_irrefl id (hlt id id hcycle ?_)
  match id with
  | 0 | 1 => obtain rfl := Option.some.inj get; cases isUnion <;> cases kind
  | id + 2 => exact Nat.le_add_left 2 id

theorem definite_forest : forest.Definite forest.Reaches := by
  intro id node _ get
  match id, forest.lt_size_of_get? get with
  | 0, _ | 1, _ | 2, _ | 3, _ | 4, _ =>
      obtain rfl := Option.some.inj get
      exact ⟨Kind.noConfusion, Kind.noConfusion⟩

theorem unmarked_forest : forest.Unmarked := by
  intro id node _ get
  match id, forest.lt_size_of_get? get with
  | 0, _ | 1, _ | 2, _ | 3, _ | 4, _ =>
      obtain rfl := Option.some.inj get
      decide +kernel

theorem simplify_simplify_forest :
    (forest.simplify false).simplify false = forest.simplify false :=
  simplify_simplify_of_straight built_forest straight_forest definite_forest unmarked_forest false

/-- The graph that schemas describe is built, so only the other conditions are left to ask. -/
theorem simplify_simplify_of_ofSchemas {ctx : BuildContext} {g : TypeGraph}
    (h : ofSchemas ctx = .ok g) (hs : g.Straight) (hd : g.Definite g.Reaches) (hu : g.Unmarked)
    (keep : Bool) : (g.simplify keep).simplify keep = g.simplify keep := by
  have hformed := wellFormed_ofSchemas h
  have hbuilt : g.Built := fun id hid => hformed.built id (hformed.lt_size hid)
  exact simplify_simplify_of_straight hbuilt hs hd hu keep

end TypeGraph

end Typewright
