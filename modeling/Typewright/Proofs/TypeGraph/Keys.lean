import Typewright.Proofs.TypeGraph.Kept
import Typewright.Proofs.TypeGraph.Member

/-!
# Keys under simplification

The body of an interface or an enum has the keys of the members that are written there. No edit
brings in a body with other keys: a body is copied as it is, members are relaxed under their keys,
and what is left out is not written. So each body after a simplification has the keys of one before
(`TypeGraph.hasKeys_of_simplify`).
-/

namespace Typewright

/-- The keys in the body of an interface or an enum, in order. -/
def Kind.keys : Kind → List String
  | .interface members _ => (members.filter (·.isWritten)).map (·.key)
  | .enum members => members.map (·.key)
  | _ => []

/-- Some node of a graph has a body with these keys. -/
def TypeGraph.HasKeys (g : TypeGraph) (keys : List String) : Prop :=
  ∃ id node, g.get? id = some node ∧ node.kind.keys = keys

namespace Kind

theorem keys_mapChildren (f : NodeId → NodeId) (kind : Kind) :
    (kind.mapChildren f).keys = kind.keys := by
  cases kind <;>
    simp [mapChildren, keys, List.filter_map, Function.comp_def, InterfaceMember.isWritten]

@[simp]
theorem keys_combination (isUnion : Bool) (cs : List NodeId) : (combination isUnion cs).keys = [] := by
  cases isUnion <;> rfl

end Kind

section Edits

variable {keep : Bool} {s t : Stage} {keys : List String}

/-- The members that do not count are not written. -/
theorem Reduction.filter_isWritten_kept (keep : Bool) (members : List InterfaceMember) :
    (kept keep members).filter (·.isWritten) = members.filter (·.isWritten) := by
  unfold kept
  split
  · rfl
  · rw [List.filter_filter]
    refine List.filter_congr fun m _ => ?_
    cases hm : m.unreachable <;> simp [InterfaceMember.isWritten, hm]

/-- Relaxed members are written under the same keys. -/
theorem Stage.keys_of_relaxed {members members' : List InterfaceMember} (supers : List NodeId)
    (h : List.Forall₂ s.Relaxed members members') :
    (Kind.interface members' supers).keys = (Kind.interface members supers).keys := by
  have hsame : List.Forall₂ (fun m m' : InterfaceMember => m'.isWritten = m.isWritten ∧ m'.key = m.key)
      members members' := h.imp fun m m' hm => by cases hm <;> exact ⟨rfl, rfl⟩
  clear h
  unfold Kind.keys
  induction hsame with
  | nil => rfl
  | cons hm _ ih =>
      dsimp only at ih ⊢
      rw [List.filter_cons, List.filter_cons, hm.1]
      split
      · rw [List.map_cons, List.map_cons, hm.2, ih]
      · exact ih

theorem Rewrite.hasKeys {id : NodeId} {node node' : Node} (h : Rewrite keep s id node node')
    (hn : s.work.graph.get? id = some node) (hne : node'.kind.keys ≠ []) :
    s.work.graph.HasKeys node'.kind.keys := by
  cases h with
  | resolve => exact ⟨id, node, hn, (Kind.keys_mapChildren _ _).symm⟩
  | combine => exact absurd (Kind.keys_combination _ _) hne
  | absorb => exact absurd rfl hne
  | copy _ _ _ _ member => exact ⟨_, _, member, rfl⟩
  | @interface members members' supers kind relaxed =>
      refine ⟨id, node, hn, ?_⟩
      dsimp only
      rw [Stage.keys_of_relaxed supers relaxed, kind, Kind.keys, Kind.keys,
        Reduction.filter_isWritten_kept]

theorem Edit.hasKeys (he : Edit keep s t) (hne : keys ≠ []) (h : t.work.graph.HasKeys keys) :
    s.work.graph.HasKeys keys := by
  obtain ⟨id, node', hn', rfl⟩ := h
  rcases he.of_get? hn' with hn | ⟨node, -, hn, hr⟩ | ⟨-, _, _, _, -, -, -, -, -, hunion⟩
  · exact ⟨id, node', hn, rfl⟩
  · exact hr.hasKeys hn hne
  · rw [hunion] at hne
    exact absurd rfl hne

theorem Edits.hasKeys (he : Edits keep s t) (hne : keys ≠ []) (h : t.work.graph.HasKeys keys) :
    s.work.graph.HasKeys keys := by
  induction he with
  | refl => exact h
  | tail _ he ih => exact ih (he.hasKeys hne h)

end Edits

/-- A body has the keys of a body before the simplification. -/
theorem TypeGraph.hasKeys_of_simplify {g : TypeGraph} (hg : g.Inside) {keep : Bool}
    {keys : List String} (hne : keys ≠ []) (h : (g.simplify keep).HasKeys keys) :
    g.HasKeys keys := by
  obtain ⟨t, he, -, heq⟩ := simplify_eq keep hg
  obtain ⟨id, node, hn, rfl⟩ := h
  rw [heq] at hn
  obtain ⟨i, old, -, hold, rfl⟩ := t.work.get?_compact_eq_some hn
  exact he.hasKeys (s := Stage.start g) hne ⟨i, old, hold, (Kind.keys_mapChildren _ _).symm⟩

end Typewright
