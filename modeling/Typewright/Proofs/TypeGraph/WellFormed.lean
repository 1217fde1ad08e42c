import Typewright.Proofs.TypeGraph.Cycles

/-!
# Well-formed type graphs

A graph is well-formed if every slot is built, every cycle passes through a named node and every
super type is a named interface. Simplification keeps this (`WellFormed.simplify`).
-/

namespace Typewright

namespace TypeGraph

variable (g : TypeGraph)

/-- A slot that holds an interface with a name. -/
def NamedInterface (id : NodeId) : Prop :=
  ∃ node members supers, g.get? id = some node ∧ node.name.isSome ∧
    node.kind = .interface members supers

/-- A slot that holds an unnamed literal. -/
def PlainLiteral (id : NodeId) : Prop :=
  ∃ node value, g.get? id = some node ∧ node.name = none ∧ node.kind = .literal value

/-- What a graph must be so that its declarations can be written. -/
structure WellFormed : Prop where
  root : g.root < g.size
  children : ∀ id node, g.get? id = some node → ∀ c ∈ node.kind.children, c < g.size
  /-- Every slot is built. -/
  built : ∀ id, id < g.size → ∃ node, g.get? id = some node
  /-- No cycle consists of unnamed nodes alone. -/
  cycles : ∀ id, ¬ Relation.TransGen g.Inlines id id
  /-- Super types are named interfaces. -/
  supers : ∀ id node members supers, g.get? id = some node → node.kind = .interface members supers →
    ∀ x ∈ supers, g.NamedInterface x

theorem WellFormed.inside {g : TypeGraph} (h : g.WellFormed) : g.Inside := by
  intro id _ c hc
  unfold childrenOf at hc
  split at hc
  · cases hc
  · exact h.children id _ ‹_› c hc

theorem WellFormed.lt_size {g : TypeGraph} (h : g.WellFormed) {id : NodeId} (hid : g.Reaches id) :
    id < g.size := by
  induction hid with
  | refl => exact h.root
  | @tail b c _ hbc _ =>
      unfold Refers childrenOf at hbc
      split at hbc
      · simp at hbc
      · exact h.children b _ ‹_› c hbc

end TypeGraph

/-! ## What edits leave alone -/

section Slots

variable {keep : Bool} {s t : Stage}

/-- Interfaces stay interfaces. -/
theorem Rewrite.interface_stays {id : NodeId} {node node' : Node} (h : Rewrite keep s id node node')
    {members : List InterfaceMember} {supers : List NodeId}
    (hk : node.kind = .interface members supers) :
    ∃ members' supers', node'.kind = .interface members' supers' := by
  cases h with
  | resolve => simp [hk, Kind.mapChildren]
  | @combine isUnion _ kind => cases isUnion <;> simp [kind, Kind.combination] at hk
  | @absorb _ isUnion _ kind => cases isUnion <;> simp [kind, Kind.combination] at hk
  | @copy _ _ isUnion _ kind => cases isUnion <;> simp [kind, Kind.combination] at hk
  | interface => exact ⟨_, _, rfl⟩

/-- Literals stay as they are. -/
theorem Rewrite.literal_stays {id : NodeId} {node node' : Node} (h : Rewrite keep s id node node')
    {value : Json} (hk : node.kind = .literal value) : node'.kind = .literal value := by
  cases h with
  | resolve => simp [hk, Kind.mapChildren]
  | @combine isUnion _ kind => cases isUnion <;> simp [kind, Kind.combination] at hk
  | @absorb _ isUnion _ kind => cases isUnion <;> simp [kind, Kind.combination] at hk
  | @copy _ _ isUnion _ kind => cases isUnion <;> simp [kind, Kind.combination] at hk
  | interface kind => simp [hk] at kind

theorem Edit.namedInterface {i : NodeId} (he : Edit keep s t) (h : s.work.graph.NamedInterface i) :
    t.work.graph.NamedInterface i := by
  obtain ⟨node, members, supers, hn, hname, hkind⟩ := h
  obtain ⟨node', hn', rfl | hr⟩ := he.get? hn
  · exact ⟨node', members, supers, hn', hname, hkind⟩
  · obtain ⟨members', supers', hkind'⟩ := hr.interface_stays hkind
    exact ⟨node', members', supers', hn', hr.name ▸ hname, hkind'⟩

theorem Edit.plainLiteral {i : NodeId} (he : Edit keep s t) (h : s.work.graph.PlainLiteral i) :
    t.work.graph.PlainLiteral i := by
  obtain ⟨node, value, hn, hname, hkind⟩ := h
  obtain ⟨node', hn', rfl | hr⟩ := he.get? hn
  · exact ⟨node', value, hn', hname, hkind⟩
  · exact ⟨node', value, hn', hr.name.trans hname, hr.literal_stays hkind⟩

end Slots

namespace Stage

variable {keep : Bool} {s t : Stage}

/-! ## Edits keep graphs well-formed -/

/-- Live slots are built and super types are named interfaces. -/
structure Built (s : Stage) : Prop where
  built : ∀ id, s.live id → ∃ node, s.work.graph.get? id = some node
  oriented : s.Oriented
  supers : ∀ id node members supers, s.live id → s.work.graph.get? id = some node →
    node.kind = .interface members supers → ∀ x ∈ supers, s.work.graph.NamedInterface x

theorem Built.resolve_eq (h : s.Built) {x : NodeId} (hx : s.work.graph.NamedInterface x) :
    s.work.resolve x = x := by
  obtain ⟨node, _, _, hn, hname, -⟩ := hx
  exact (h.oriented.free hn hname).resolve_eq

/-- The super types that are written into a slot are named interfaces. -/
theorem Built.rewrite (h : s.Built) (hc : s.Closed) {id : NodeId} {node node' : Node}
    (live : s.live id) (get : s.work.graph.get? id = some node) (hr : Rewrite keep s id node node')
    {members : List InterfaceMember} {supers : List NodeId}
    (hk : node'.kind = .interface members supers) :
    ∀ x ∈ supers, s.work.graph.NamedInterface x := by
  intro x hx
  cases hr with
  | resolve =>
      cases hold : node.kind with
      | interface ms ss =>
          simp only [hold, Kind.mapChildren, Kind.interface.injEq] at hk
          obtain ⟨-, rfl⟩ := hk
          obtain ⟨y, hy, rfl⟩ := List.mem_map.1 hx
          have hnamed := h.supers id node ms ss live get hold y hy
          rwa [h.resolve_eq hnamed]
      | _ => simp [hold, Kind.mapChildren] at hk
  | @combine isUnion _ kind => cases isUnion <;> simp [Kind.combination] at hk
  | absorb => simp at hk
  | @copy only child isUnion children kind single any ne member =>
      have honly : s.live only :=
        hc.members (fun d hd => hc.child_of_get live get (by rwa [kind, Kind.children_combination]))
          (single ▸ List.mem_singleton_self only)
      exact h.supers only child members supers honly member hk x hx
  | @interface ms ms' ss kind relaxed =>
      simp only [Kind.interface.injEq] at hk
      exact h.supers id node ms ss live get kind x (hk.2 ▸ hx)

theorem Built.edit (h : s.Built) (hc : s.Closed) (he : Edit keep s t) : t.Built where
  built id hid := by
    rcases he.of_live hid with hid | ⟨-, hnew⟩
    · obtain ⟨node, hn⟩ := h.built id hid
      obtain ⟨node', hn', -⟩ := he.get? hn
      exact ⟨node', hn'⟩
    · exact hnew
  oriented := h.oriented.edit he
  supers id node members supers hid hn hkind x hx := by
    refine he.namedInterface ?_
    rcases he.of_get? hn with hn | ⟨old, live, hold, hr⟩ | ⟨-, _, _, _, -, -, -, -, -, hk⟩
    · have hlive : s.live id := by
        rcases he.of_live hid with hid | ⟨rfl, -⟩
        · exact hid
        · exact absurd (s.work.graph.lt_size_of_get? hn) (Nat.lt_irrefl _)
      exact h.supers id node members supers hlive hn hkind x hx
    · exact h.rewrite hc live hold hr hkind x hx
    · rw [hk] at hkind
      cases hkind

theorem Built.edits (h : s.Built) (hc : s.Closed) (he : Edits keep s t) : t.Built := by
  induction he with
  | refl => exact h
  | tail hst he ih => exact ih.edit (hc.edits hst) he

end Stage

namespace Reduction

variable {w : Reduction}

/-! ## The result -/

theorem namedInterface_compact {id : NodeId} (h : w.graph.NamedInterface (w.resolve id))
    (hid : w.resolve id ∈ w.order) : w.compact.NamedInterface (w.number id) := by
  obtain ⟨node, members, supers, hn, hname, hkind⟩ := h
  refine ⟨w.renumber node, members.map fun m => { m with node := w.number m.node },
    supers.map w.number, ?_, hname, by simp [renumber, hkind, Kind.mapChildren]⟩
  rw [w.get?_compact_number hid, hn]
  rfl

/-- In the result, as in the graph under work, texts of unnamed nodes contain smaller ones. -/
theorem ranking_compact {live : NodeId → Prop} {rank : NodeId → Nat}
    (h : w.graph.Ranking live rank) (hlive : ∀ id ∈ w.order, live id)
    (hres : ∀ id, rank (w.resolve id) ≤ rank id) :
    w.compact.Ranking (fun _ => True) fun i => (w.order[i]?).elim 0 rank where
  inlines := by
    rintro i j - ⟨node, hn, hname, hj⟩
    obtain ⟨id, old, hid, hold, rfl⟩ := w.get?_compact_eq_some hn
    have hmem : id ∈ w.order := List.mem_of_getElem? hid
    simp only [renumber, Kind.children_mapChildren] at hj
    obtain ⟨c, hc, rfl⟩ := List.mem_map.1 hj
    simp only [hid, w.getElem?_order_number (w.child_mem_order hmem hold hc), Option.elim_some]
    exact Nat.lt_of_le_of_lt (hres c) (h.inlines id c (hlive id hmem) ⟨old, hold, hname, hc⟩)
  named := by
    intro i node _ hn hname
    obtain ⟨id, old, hid, hold, rfl⟩ := w.get?_compact_eq_some hn
    simp only [hid, Option.elim_some]
    exact h.named id old (hlive id (List.mem_of_getElem? hid)) hold hname

end Reduction

namespace TypeGraph

variable {g : TypeGraph}

/-- Simplification keeps a graph well-formed. -/
theorem WellFormed.simplify (h : g.WellFormed) (keep : Bool) : (g.simplify keep).WellFormed := by
  obtain ⟨t, he, hct, heq⟩ := TypeGraph.simplify_eq keep h.inside
  have hc := Stage.closed_start g
  have hb : (Stage.start g).Bounded := fun id hid => h.lt_size hid
  have hbuilt : (Stage.start g).Built :=
    ⟨fun id hid => h.built id (h.lt_size hid), Stage.oriented_start g,
      fun id node ms ss _ => h.supers id node ms ss⟩
  obtain ⟨rank, hrank⟩ := g.exists_ranking fun id _ => h.cycles id
  have hranked : (Stage.start g).Ranked rank :=
    ⟨hrank, fun _ _ hl => absurd hl List.not_mem_nil, fun _ _ hn => absurd hn List.not_mem_nil⟩
  have hbt := hbuilt.edits hc he
  obtain ⟨rank', hrt⟩ := hranked.edits hc hb he
  rw [heq]
  set w := t.work with hw
  have hchild : ∀ {i node}, w.compact.get? i = some node → ∀ c ∈ node.kind.children,
      c < w.compact.size := by
    intro i node hn c hcmem
    obtain ⟨id, old, hid, hold, rfl⟩ := w.get?_compact_eq_some hn
    simp only [Reduction.renumber, Kind.children_mapChildren] at hcmem
    obtain ⟨d, hd, rfl⟩ := List.mem_map.1 hcmem
    exact w.number_lt (w.child_mem_order (List.mem_of_getElem? hid) hold hd)
  have hranking := Reduction.ranking_compact hrt.ranking hct.order hrt.resolve_le
  refine ⟨w.number_lt w.root_mem_order, fun _ _ hn => hchild hn, fun i hi => ?_,
    fun i => hranking.not_transGen (fun _ _ _ _ => trivial) trivial, ?_⟩
  · rw [w.size_compact] at hi
    obtain ⟨node, hn⟩ := hbt.built _ (hct.order _ (List.getElem_mem hi))
    exact ⟨w.renumber node, by rw [w.get?_compact, List.getElem?_eq_getElem hi, Option.bind_some, hn]; rfl⟩
  · intro i node ms ss hn hkind x hx
    obtain ⟨id, old, hid, hold, rfl⟩ := w.get?_compact_eq_some hn
    have hmem : id ∈ w.order := List.mem_of_getElem? hid
    cases hk : old.kind with
    | interface ms' ss' =>
        simp only [Reduction.renumber, hk, Kind.mapChildren, Kind.interface.injEq] at hkind
        obtain ⟨-, rfl⟩ := hkind
        obtain ⟨y, hy, rfl⟩ := List.mem_map.1 hx
        have hnamed := hbt.supers id old ms' ss' (hct.order id hmem) hold hk y hy
        have hres := hbt.resolve_eq hnamed
        refine Reduction.namedInterface_compact (by rwa [hres]) (w.child_mem_order hmem hold ?_)
        rw [hk]
        exact List.mem_append_right _ hy
    | _ => simp [Reduction.renumber, hk, Kind.mapChildren] at hkind

end TypeGraph

end Typewright
