import Typewright.Proofs.Identifier
import Typewright.Proofs.TypeGraph.WellFormed

/-!
# Names and the values of enums

In a graph that is built from schemas names are clean and distinct, and the values of an enum are
unnamed literals. Simplification keeps both (`Labelled.simplify`): no edit gives a node a name, and
a literal is neither rewritten nor redirected.
-/

namespace Typewright

namespace TypeGraph

/-- Names are clean and distinct, and the values of enums are unnamed literals. -/
structure Labelled (g : TypeGraph) : Prop where
  clean : ∀ id node name, g.get? id = some node → node.name = some name →
    Identifier.Clean name.toList
  distinct : ∀ i j node node' name, g.get? i = some node → g.get? j = some node' →
    node.name = some name → node'.name = some name → i = j
  enums : ∀ id node members, g.get? id = some node → node.kind = .enum members →
    ∀ m ∈ members, g.PlainLiteral m.node

end TypeGraph

namespace Stage

variable {keep : Bool} {s t : Stage}

/-- An unnamed literal that no redirect starts at. -/
def Fixed (s : Stage) (x : NodeId) : Prop := s.work.graph.PlainLiteral x ∧ s.work.Free x

theorem Fixed.edit {x : NodeId} (h : s.Fixed x) (he : Edit keep s t) : t.Fixed x := by
  refine ⟨he.plainLiteral h.1, fun b hl => ?_⟩
  rcases he.of_leads hl with hl | ⟨node, -, isUnion, children, hn, hkind, -⟩
  · exact h.2 b hl
  · obtain ⟨node', value, hn', -, hkind'⟩ := h.1
    obtain rfl := Option.some.inj (hn.symm.trans hn')
    rw [hkind] at hkind'
    cases isUnion <;> cases hkind'

/-- The graph under work is labelled, and the values of its enums stay as they are. -/
structure Labelled (s : Stage) : Prop where
  graph : s.work.graph.Labelled
  enums : ∀ id node members, s.work.graph.get? id = some node → node.kind = .enum members →
    ∀ m ∈ members, s.Fixed m.node

/-- The enums that are written into a slot have fixed values. -/
theorem Labelled.rewrite (h : s.Labelled) {id : NodeId} {node node' : Node}
    (get : s.work.graph.get? id = some node) (hr : Rewrite keep s id node node')
    {members : List EnumMember} (hk : node'.kind = .enum members) :
    ∀ m ∈ members, s.Fixed m.node := by
  intro m hm
  cases hr with
  | resolve =>
      cases hold : node.kind with
      | enum ms =>
          simp only [hold, Kind.mapChildren, Kind.enum.injEq] at hk
          obtain ⟨m₀, hm₀, rfl⟩ := List.mem_map.1 (hk ▸ hm)
          have hfixed := h.enums id node ms get hold m₀ hm₀
          rwa [hfixed.2.resolve_eq]
      | _ => simp [hold, Kind.mapChildren] at hk
  | @combine isUnion _ kind => cases isUnion <;> simp [Kind.combination] at hk
  | absorb => simp at hk
  | @copy only child isUnion children kind single any ne member =>
      exact h.enums only child members member hk m hm
  | interface => simp at hk

theorem Labelled.edit (h : s.Labelled) (he : Edit keep s t) : t.Labelled := by
  have henums : ∀ id node members, t.work.graph.get? id = some node → node.kind = .enum members →
      ∀ m ∈ members, t.Fixed m.node := by
    intro id node members hn hkind m hm
    refine Fixed.edit ?_ he
    rcases he.of_get? hn with hn | ⟨old, -, hold, hr⟩ | ⟨-, _, _, _, -, -, -, -, -, hk⟩
    · exact h.enums id node members hn hkind m hm
    · exact h.rewrite hold hr hkind m hm
    · rw [hk] at hkind
      cases hkind
  have hold : ∀ i node name, t.work.graph.get? i = some node → node.name = some name →
      ∃ old, s.work.graph.get? i = some old ∧ old.name = some name := by
    intro i node name hn hname
    rcases he.name hn with ⟨old, hold, hsame⟩ | hnone
    · exact ⟨old, hold, hsame ▸ hname⟩
    · rw [hnone] at hname
      cases hname
  refine ⟨⟨fun id node name hn hname => ?_, fun i j node node' name hi hj hni hnj => ?_,
    fun id node members hn hkind m hm => (henums id node members hn hkind m hm).1⟩, henums⟩
  · obtain ⟨old, hold, hname⟩ := hold id node name hn hname
    exact h.graph.clean id old name hold hname
  · obtain ⟨a, ha, hna⟩ := hold i node name hi hni
    obtain ⟨b, hb, hnb⟩ := hold j node' name hj hnj
    exact h.graph.distinct i j a b name ha hb hna hnb

theorem Labelled.edits (h : s.Labelled) (he : Edits keep s t) : t.Labelled := by
  induction he with
  | refl => exact h
  | tail _ he ih => exact ih.edit he

/-! ## The result -/

theorem Labelled.compact (h : s.Labelled) : s.work.compact.Labelled where
  clean i node name hn hname := by
    obtain ⟨id, old, -, hold, rfl⟩ := s.work.get?_compact_eq_some hn
    exact h.graph.clean id old name hold hname
  distinct i j node node' name hi hj hni hnj := by
    obtain ⟨a, olda, ha, holda, rfl⟩ := s.work.get?_compact_eq_some hi
    obtain ⟨b, oldb, hb, holdb, rfl⟩ := s.work.get?_compact_eq_some hj
    obtain rfl := h.graph.distinct a b olda oldb name holda holdb hni hnj
    obtain ⟨hlt, -⟩ := List.getElem?_eq_some_iff.1 ha
    exact (List.getElem?_inj hlt s.work.nodup_order).1 (ha.trans hb.symm)
  enums i node members hn hkind m hm := by
    obtain ⟨id, old, hid, hold, rfl⟩ := s.work.get?_compact_eq_some hn
    cases hk : old.kind with
    | enum ms =>
        simp only [Reduction.renumber, hk, Kind.mapChildren, Kind.enum.injEq] at hkind
        obtain ⟨m₀, hm₀, rfl⟩ := List.mem_map.1 (hkind ▸ hm)
        have hfixed := h.enums id old ms hold hk m₀ hm₀
        have hmem : s.work.resolve m₀.node ∈ s.work.order := by
          refine s.work.child_mem_order (List.mem_of_getElem? hid) hold ?_
          rw [hk]
          exact List.mem_map_of_mem hm₀
        obtain ⟨lit, value, hlit, hname, hvalue⟩ := hfixed.1
        refine ⟨s.work.renumber lit, value, ?_, hname, by simp [Reduction.renumber, hvalue,
          Kind.mapChildren]⟩
        rw [s.work.get?_compact_number hmem, hfixed.2.resolve_eq, hlit]
        rfl
    | _ => simp [Reduction.renumber, hk, Kind.mapChildren] at hkind

end Stage

/-- The named nodes that are live were reachable under their names in a graph. -/
def Stage.NamedIn (s : Stage) (g : TypeGraph) : Prop :=
  ∀ id node name, s.live id → s.work.graph.get? id = some node → node.name = some name →
    g.Reaches id ∧ ∃ old, g.get? id = some old ∧ old.name = some name

theorem Stage.NamedIn.edit {g : TypeGraph} {keep : Bool} {s t : Stage} (h : s.NamedIn g)
    (he : Edit keep s t) : t.NamedIn g := by
  intro id node name hlive hn hname
  obtain ⟨old, hlive, hold, hname⟩ := exists_name_of_edit he hlive hn hname
  exact h id old name hlive hold hname

theorem Stage.NamedIn.edits {g : TypeGraph} {keep : Bool} {s t : Stage} (h : s.NamedIn g)
    (he : Edits keep s t) : t.NamedIn g := by
  induction he with
  | refl => exact h
  | tail _ he ih => exact ih.edit he

namespace TypeGraph

theorem mem_reachableNames {g : TypeGraph} {name : String} :
    name ∈ g.reachableNames ↔
      ∃ id node, g.Reaches id ∧ g.get? id = some node ∧ node.name = some name := by
  simp only [reachableNames, List.mem_filterMap, Option.bind_eq_some_iff, g.mem_reachable_iff]
  constructor
  · rintro ⟨id, hid, node, hn, hname⟩
    exact ⟨id, node, hid, hn, hname⟩
  · rintro ⟨id, node, hid, hn, hname⟩
    exact ⟨id, hid, node, hn, hname⟩

/-- Simplification brings no name to the root that it did not reach before. -/
theorem reachableNames_simplify_subset {g : TypeGraph} (hg : g.Inside) (keep : Bool) :
    (g.simplify keep).reachableNames ⊆ g.reachableNames := by
  obtain ⟨t, he, hclosed, heq⟩ := simplify_eq keep hg
  have hstart : (Stage.start g).NamedIn g := fun _ node _ hid hn hname => ⟨hid, node, hn, hname⟩
  intro name hmem
  rw [heq] at hmem
  obtain ⟨i, node, -, hn, hname⟩ := mem_reachableNames.1 hmem
  obtain ⟨id, old, hid, hold, rfl⟩ := t.work.get?_compact_eq_some hn
  have hlive := hclosed.order id (List.mem_of_getElem? hid)
  obtain ⟨hreach, first, hfirst, hsame⟩ := (hstart.edits he) id old name hlive hold hname
  exact mem_reachableNames.2 ⟨id, first, hreach, hfirst, hsame⟩

end TypeGraph

/-- Simplification keeps a graph labelled. -/
theorem TypeGraph.Labelled.simplify {g : TypeGraph} (h : g.Labelled) (hg : g.Inside) (keep : Bool) :
    (g.simplify keep).Labelled := by
  obtain ⟨t, he, -, heq⟩ := TypeGraph.simplify_eq keep hg
  have hstart : (Stage.start g).Labelled :=
    ⟨h, fun id node members hn hkind m hm =>
      ⟨h.enums id node members hn hkind m hm, fun _ hl => absurd hl List.not_mem_nil⟩⟩
  rw [heq]
  exact (hstart.edits he).compact

end Typewright
