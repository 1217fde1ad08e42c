import Typewright.Proofs.TypeGraph.Equivalence
import Typewright.Proofs.TypeGraph.Names
import Typewright.Proofs.TypeGraph.WellFormed

/-!
# What simplification keeps of named nodes

No redirect starts at a named node and no edit takes its name, so a named root stays the root under
its name (`TypeGraph.exists_root_simplify`). If definitions are kept, an interface keeps its members
that have named types: a member is only relaxed where its type is an unnamed union
(`TypeGraph.exists_member_simplify`). Simplification brings in neither names nor texts of custom types
and references (`TypeGraph.holds_of_simplify`, `TypeGraph.hasKind_of_simplify`).
-/

namespace Typewright

/-- A slot that holds a node with a name. -/
def TypeGraph.Holds (g : TypeGraph) (id : NodeId) (name : String) : Prop :=
  ∃ node, g.get? id = some node ∧ node.name = some name

/-- A slot that holds an interface with a member of some type. -/
def TypeGraph.HasMember (g : TypeGraph) (id c : NodeId) : Prop :=
  ∃ node members supers, g.get? id = some node ∧ node.kind = .interface members supers ∧
    ∃ m ∈ members, m.node = c

/-- A kind that is nothing but a text, which is written as it is. -/
inductive Kind.Verbatim : Kind → Prop where
  | custom (text : String) : Verbatim (.customType text)
  | reference (text : String) : Verbatim (.reference text)

/-- Whether a node of a graph is of some kind. -/
def TypeGraph.HasKind (g : TypeGraph) (kind : Kind) : Prop :=
  ∃ id node, g.get? id = some node ∧ node.kind = kind

theorem Kind.Verbatim.of_mapChildren {kind kind' : Kind} (hv : kind'.Verbatim)
    {f : NodeId → NodeId} (h : kind.mapChildren f = kind') : kind = kind' := by
  cases hv <;> cases kind <;> simp [Kind.mapChildren] at h ⊢ <;> exact h

section Slots

variable {keep : Bool} {s t : Stage} {id c : NodeId} {name : String} {kind : Kind}

theorem Edit.holds (he : Edit keep s t) (h : s.work.graph.Holds id name) :
    t.work.graph.Holds id name := by
  obtain ⟨node, hn, hname⟩ := h
  obtain ⟨node', hn', rfl | hr⟩ := he.get? hn
  · exact ⟨node', hn', hname⟩
  · exact ⟨node', hn', hr.name.trans hname⟩

theorem Edits.holds (he : Edits keep s t) (h : s.work.graph.Holds id name) :
    t.work.graph.Holds id name := by
  induction he with
  | refl => exact h
  | tail _ he ih => exact he.holds ih

theorem Edits.root (he : Edits keep s t) : t.work.graph.root = s.work.graph.root := by
  induction he with
  | refl => rfl
  | tail _ he ih => exact he.root.trans ih

/-- The nodes with a rest have no name. -/
def Stage.Rested (s : Stage) : Prop :=
  ∀ u n, (u, n) ∈ s.rests → ∃ node, s.work.graph.get? u = some node ∧ node.name = none

theorem Stage.Rested.edit (h : s.Rested) (he : Edit keep s t) : t.Rested := by
  have hkeep : ∀ {u}, (∃ node, s.work.graph.get? u = some node ∧ node.name = none) →
      ∃ node, t.work.graph.get? u = some node ∧ node.name = none := by
    rintro u ⟨node, hn, hname⟩
    obtain ⟨node', hn', rfl | hr⟩ := he.get? hn
    · exact ⟨node', hn', hname⟩
    · exact ⟨node', hn', hr.name.trans hname⟩
  intro u n hmem
  refine hkeep ?_
  cases he with
  | rewrite => exact h u n hmem
  | redirect => exact h u n hmem
  | branch live get kind unnamed =>
      rcases List.mem_cons.1 hmem with heq | hmem
      · obtain ⟨rfl, -⟩ := Prod.mk.inj heq
        exact ⟨_, get, unnamed⟩
      · exact h u n hmem
  | @restate v m mem =>
      rcases List.mem_cons.1 hmem with heq | hmem
      · obtain ⟨rfl, -⟩ := Prod.mk.inj heq
        exact h u m mem
      · exact h u n hmem

/-- A member with a named type is kept in its place. -/
theorem Stage.Relaxed.eq_of_named {m m' : InterfaceMember} (h : s.Relaxed m m') (hr : s.Rested)
    (hnamed : s.work.graph.Holds m.node name) : m' = m := by
  cases h with
  | same => rfl
  | rest hmem =>
      obtain ⟨node, hn, hnone⟩ := hr _ _ hmem
      obtain ⟨node', hn', hsome⟩ := hnamed
      obtain rfl := Option.some.inj (hn.symm.trans hn')
      rw [hnone] at hsome
      cases hsome

theorem Rewrite.hasMember {node node' : Node} (h : Rewrite true s id node node') (ho : s.Oriented)
    (hr : s.Rested) (hnamed : s.work.graph.Holds c name) {members : List InterfaceMember}
    {supers : List NodeId} (hk : node.kind = .interface members supers)
    (hm : ∃ m ∈ members, m.node = c) : ∃ members' supers',
      node'.kind = .interface members' supers' ∧ ∃ m ∈ members', m.node = c := by
  obtain ⟨m, hm, rfl⟩ := hm
  -- an interface stays one: its children are followed, or its members are relaxed
  cases h with
  | resolve =>
      obtain ⟨cnode, hc, hname⟩ := hnamed
      have hfree := (ho.free hc (by simp [hname])).resolve_eq
      exact ⟨_, _, by rw [hk, Kind.mapChildren], _, List.mem_map_of_mem hm, hfree⟩
  | @combine isUnion _ kind => cases isUnion <;> simp [kind, Kind.combination] at hk
  | @absorb _ isUnion _ kind => cases isUnion <;> simp [kind, Kind.combination] at hk
  | @copy _ _ isUnion _ kind => cases isUnion <;> simp [kind, Kind.combination] at hk
  | @interface ms ms' ss kind relaxed =>
      obtain ⟨rfl, rfl⟩ := Kind.interface.inj (hk.symm.trans kind)
      obtain ⟨m', hm', hrelaxed⟩ := exists_of_forall₂_left relaxed hm
      exact ⟨_, _, rfl, m', hm', by rw [hrelaxed.eq_of_named hr hnamed]⟩

theorem Edit.hasMember (he : Edit true s t) (ho : s.Oriented) (hr : s.Rested)
    (hnamed : s.work.graph.Holds c name) (h : s.work.graph.HasMember id c) :
    t.work.graph.HasMember id c := by
  obtain ⟨node, members, supers, hn, hk, hm⟩ := h
  obtain ⟨node', hn', rfl | hrewrite⟩ := he.get? hn
  · exact ⟨node', members, supers, hn', hk, hm⟩
  · obtain ⟨members', supers', hk', hm'⟩ := hrewrite.hasMember ho hr hnamed hk hm
    exact ⟨node', members', supers', hn', hk', hm'⟩

theorem Edits.hasMember (he : Edits true s t) (ho : s.Oriented) (hr : s.Rested)
    (hnamed : s.work.graph.Holds c name) (h : s.work.graph.HasMember id c) :
    t.work.graph.HasMember id c := by
  -- a step needs the invariants of the stage that it starts in
  have hall : t.Oriented ∧ t.Rested ∧ t.work.graph.Holds c name ∧ t.work.graph.HasMember id c := by
    induction he with
    | refl => exact ⟨ho, hr, hnamed, h⟩
    | tail _ he ih =>
        obtain ⟨ho, hr, hnamed, h⟩ := ih
        exact ⟨ho.edit he, hr.edit he, he.holds hnamed, he.hasMember ho hr hnamed h⟩
  exact hall.2.2.2

theorem Rewrite.hasKind {node node' : Node} (h : Rewrite keep s id node node')
    (hn : s.work.graph.get? id = some node) (hv : node'.kind.Verbatim) :
    s.work.graph.HasKind node'.kind := by
  cases h with
  | resolve => exact ⟨id, node, hn, hv.of_mapChildren rfl⟩
  | @combine isUnion => cases isUnion <;> cases hv
  | absorb => cases hv
  | copy _ _ _ _ member => exact ⟨_, _, member, rfl⟩
  | interface => cases hv

theorem Edit.hasKind (he : Edit keep s t) (hv : kind.Verbatim) (h : t.work.graph.HasKind kind) :
    s.work.graph.HasKind kind := by
  obtain ⟨id, node', hn', rfl⟩ := h
  rcases he.of_get? hn' with hn | ⟨node, -, hn, hr⟩ | ⟨-, _, _, _, -, -, -, -, -, hunion⟩
  · exact ⟨id, node', hn, rfl⟩
  · exact hr.hasKind hn hv
  · rw [hunion] at hv
    cases hv

theorem Edits.hasKind (he : Edits keep s t) (hv : kind.Verbatim) (h : t.work.graph.HasKind kind) :
    s.work.graph.HasKind kind := by
  induction he with
  | refl => exact h
  | tail _ he ih => exact ih (he.hasKind hv h)

end Slots

/-! ## The result -/

namespace Reduction

variable {w : Reduction} {id : NodeId} {name : String}

theorem holds_compact (h : w.graph.Holds (w.resolve id) name) (hid : w.resolve id ∈ w.order) :
    w.compact.Holds (w.number id) name := by
  obtain ⟨node, hn, hname⟩ := h
  exact ⟨w.renumber node, by rw [w.get?_compact_number hid, hn]; rfl, hname⟩

end Reduction

namespace TypeGraph

variable {g : TypeGraph} {name : String}

/-- Simplification gives no node a new name. -/
theorem holds_of_simplify (hg : g.Inside) {keep : Bool} {id : NodeId}
    (h : (g.simplify keep).Holds id name) : ∃ id', g.Holds id' name := by
  obtain ⟨t, he, hclosed, heq⟩ := simplify_eq keep hg
  obtain ⟨node, hn, hname⟩ := h
  rw [heq] at hn
  obtain ⟨id', old, hid, hold, rfl⟩ := t.work.get?_compact_eq_some hn
  have hstart : (Stage.start g).NamedIn g := fun _ node _ hid hn hname => ⟨hid, node, hn, hname⟩
  obtain ⟨-, first, hfirst, hsame⟩ := (hstart.edits he) id' old name
    (hclosed.order id' (List.mem_of_getElem? hid)) hold hname
  exact ⟨id', first, hfirst, hsame⟩

/-- Simplification brings in no text of a custom type or a reference. -/
theorem hasKind_of_simplify (hg : g.Inside) {keep : Bool} {kind : Kind} (hv : kind.Verbatim)
    (h : (g.simplify keep).HasKind kind) : g.HasKind kind := by
  obtain ⟨t, he, -, heq⟩ := simplify_eq keep hg
  obtain ⟨id, node, hn, rfl⟩ := h
  rw [heq] at hn
  obtain ⟨id', old, -, hold, rfl⟩ := t.work.get?_compact_eq_some hn
  exact he.hasKind (s := Stage.start g) hv ⟨id', old, hold, hv.of_mapChildren rfl⟩

theorem exists_root_simplify (hg : g.Inside) (h : g.Holds g.root name) (keep : Bool) :
    (g.simplify keep).Holds (g.simplify keep).root name := by
  obtain ⟨t, he, -, heq⟩ := simplify_eq keep hg
  have hroot : t.work.graph.Holds t.work.graph.root name := by
    rw [he.root]
    exact he.holds h
  obtain ⟨node, hn, hname⟩ := hroot
  have hself : t.work.resolve t.work.graph.root = t.work.graph.root :=
    (((Stage.oriented_start g).edits he).free hn (by simp [hname])).resolve_eq
  rw [heq]
  exact Reduction.holds_compact (by rw [hself]; exact ⟨node, hn, hname⟩) t.work.root_mem_order

/-- If definitions are kept, the named types of a named root's members stay reachable. -/
theorem exists_member_simplify (hg : g.Inside) {rootName : String} (h : g.Holds g.root rootName)
    {c : NodeId} (hm : g.HasMember g.root c) (hc : g.Holds c name) :
    ∃ c', (g.simplify true).Reaches c' ∧ (g.simplify true).Holds c' name := by
  obtain ⟨t, he, -, heq⟩ := simplify_eq true hg
  have ho := (Stage.oriented_start g).edits he
  have hself : ∀ {id name}, t.work.graph.Holds id name → t.work.resolve id = id := by
    rintro id name ⟨node, hn, hname⟩
    exact (ho.free hn (by simp [hname])).resolve_eq
  have hroot : t.work.graph.Holds g.root rootName := he.holds h
  have hchild : t.work.graph.Holds c name := he.holds hc
  obtain ⟨node, members, supers, hn, hk, m, hmem, rfl⟩ :=
    he.hasMember (Stage.oriented_start g) (fun _ _ h => absurd h List.not_mem_nil) hc hm
  have hrootmem := t.work.root_mem_order
  rw [he.root, show (Stage.start g).work.graph.root = g.root from rfl, hself hroot] at hrootmem
  have hcmem : t.work.resolve m.node ∈ t.work.order := by
    refine t.work.child_mem_order hrootmem hn ?_
    rw [hk]
    exact List.mem_append_left _ (List.mem_map_of_mem hmem)
  have hslot : t.work.compact.get? (t.work.number g.root) = some (t.work.renumber node) := by
    rw [t.work.get?_compact_number ((hself hroot).symm ▸ hrootmem), hself hroot, hn]
    rfl
  rw [heq]
  refine ⟨t.work.number m.node, ?_, Reduction.holds_compact ((hself hchild).symm ▸ hchild) hcmem⟩
  have hsame : t.work.compact.root = t.work.number g.root := by
    rw [t.work.root_compact, he.root]
    rfl
  have hreaches : t.work.compact.Reaches (t.work.number g.root) := hsame ▸ .refl
  refine Reaches.child _ hreaches hslot ?_
  simp only [Reduction.renumber, hk, Kind.mapChildren, Kind.children]
  exact List.mem_append_left _ (List.mem_map.2 ⟨_, List.mem_map_of_mem hmem, rfl⟩)

end TypeGraph

end Typewright
