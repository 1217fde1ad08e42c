import Mathlib.Data.List.Forall2
import Mathlib.Logic.Relation
import Typewright.Proofs.Walk
import Typewright.TypeGraph.Basic

/-!
# Slots, children and reachable nodes

How each operation on a type graph changes what its slots hold, and reachability as a relation.
-/

namespace Typewright

/-- An entry of one list has a counterpart in the other. -/
theorem exists_of_forall₂_left {α β : Type} {r : α → β → Prop} {xs : List α} {ys : List β}
    (h : List.Forall₂ r xs ys) {x : α} (hx : x ∈ xs) : ∃ y ∈ ys, r x y := by
  induction h with
  | nil => cases hx
  | cons hr _ ih =>
      rcases List.mem_cons.1 hx with rfl | hx
      · exact ⟨_, List.mem_cons_self, hr⟩
      · obtain ⟨y, hy, hr⟩ := ih hx
        exact ⟨y, List.mem_cons_of_mem _ hy, hr⟩

namespace TypeGraph

variable (g : TypeGraph)

/-! ## Slots -/

theorem get?_eq_some_iff {id : NodeId} {node : Node} :
    g.get? id = some node ↔ g.nodes[id]? = some (some node) := by
  simp [get?, Option.join_eq_some_iff]

theorem lt_size_of_get? {id : NodeId} {node : Node} (h : g.get? id = some node) : id < g.size := by
  have h := (g.get?_eq_some_iff).1 h
  exact (Array.getElem?_eq_some_iff.1 h).1

theorem get?_eq_none_of_size_le {id : NodeId} (h : g.size ≤ id) : g.get? id = none := by
  cases hn : g.get? id with
  | none => rfl
  | some node => exact absurd (g.lt_size_of_get? hn) (Nat.not_lt.2 h)

theorem childrenOf_eq {id : NodeId} {node : Node} (h : g.get? id = some node) :
    g.childrenOf id = node.kind.children := by
  simp [childrenOf, h]

@[simp] theorem size_fill (id : NodeId) (node : Node) : (g.fill id node).size = g.size := by
  simp [fill, size]

@[simp] theorem root_fill (id : NodeId) (node : Node) : (g.fill id node).root = g.root := rfl

theorem get?_fill_self {id : NodeId} {node : Node} (h : id < g.size) :
    (g.fill id node).get? id = some node := by
  have h : id < g.nodes.size := h
  simp [get?, fill, h]

theorem get?_fill_of_ne {id i : NodeId} {node : Node} (h : i ≠ id) :
    (g.fill id node).get? i = g.get? i := by
  simp [get?, fill, h.symm]

theorem get?_fill {id i : NodeId} {node : Node} (h : id < g.size) :
    (g.fill id node).get? i = if i = id then some node else g.get? i := by
  split
  · rename_i hi; rw [hi, g.get?_fill_self h]
  · rename_i hi; exact g.get?_fill_of_ne hi

theorem fill_of_size_le {id : NodeId} {node : Node} (h : g.size ≤ id) : g.fill id node = g := by
  have h : ¬ id < g.nodes.size := Nat.not_lt.2 h
  simp [fill, Array.setIfInBounds, h]

@[simp] theorem size_modify (id : NodeId) (f : Node → Node) : (g.modify id f).size = g.size := by
  unfold modify
  split
  · rfl
  · exact g.size_fill _ _

theorem get?_modify {id i : NodeId} {f : Node → Node} :
    (g.modify id f).get? i = if i = id then (g.get? id).map f else g.get? i := by
  unfold modify
  split
  · rename_i hn
    split
    · rename_i hi
      rw [hi, hn, Option.map_none]
    · rfl
  · rename_i node hn
    rw [g.get?_fill (g.lt_size_of_get? hn), hn, Option.map_some]

theorem get?_reserve {i : NodeId} : g.reserve.2.get? i = g.get? i := by
  simp only [reserve, get?]
  rw [Array.getElem?_push]
  split
  · rename_i hi
    rw [hi, Array.getElem?_eq_none (Nat.le_refl _)]
    rfl
  · rfl

@[simp] theorem size_add (node : Node) : (g.add node).2.size = g.size + 1 := by simp [add, size]

@[simp] theorem fst_add (node : Node) : (g.add node).1 = g.size := rfl

@[simp] theorem root_add (node : Node) : (g.add node).2.root = g.root := rfl

theorem get?_add_self (node : Node) : (g.add node).2.get? g.size = some node := by
  simp [get?, add, size]

theorem get?_add_of_ne {i : NodeId} {node : Node} (h : i ≠ g.size) :
    (g.add node).2.get? i = g.get? i := by
  simp only [get?, add, size] at *
  rw [Array.getElem?_push, if_neg h]

theorem get?_add_of_lt {i : NodeId} {node : Node} (h : i < g.size) :
    (g.add node).2.get? i = g.get? i :=
  g.get?_add_of_ne (Nat.ne_of_lt h)

/-! ## Reachability -/

/-- One node refers to another. -/
def Refers (a b : NodeId) : Prop := b ∈ g.childrenOf a

/-- The root leads to a node. -/
def Reaches (id : NodeId) : Prop := Relation.ReflTransGen g.Refers g.root id

theorem mem_mentioned_of_refers {a b : NodeId} (h : g.Refers a b) : b ∈ g.mentioned := by
  have ha : a < g.size := by
    unfold Refers childrenOf at h
    split at h
    · simp at h
    · exact g.lt_size_of_get? ‹_›
  simp only [mentioned, List.mem_eraseDups, List.cons_append, List.mem_cons, List.mem_append,
    List.mem_flatMap, List.mem_range]
  exact .inr (.inr ⟨a, ha, h⟩)

theorem root_mem_mentioned : g.root ∈ g.mentioned := by simp [mentioned]

theorem mem_reachable_iff {id : NodeId} : id ∈ g.reachable ↔ g.Reaches id := by
  constructor
  · refine Walk.preorder_induction (P := g.Reaches) ?_ (fun a ha b hb => ha.tail hb) id
    simp only [List.mem_singleton, forall_eq]
    exact .refl
  · intro h
    induction h with
    | refl => exact Walk.mem_preorder_of_mem List.mem_cons_self g.root_mem_mentioned
    | tail _ hbc ih => exact Walk.next_mem_preorder ih hbc (g.mem_mentioned_of_refers hbc)

theorem nodup_mentioned : g.mentioned.Nodup := Walk.nodup_eraseDups _

theorem nodup_reachable : g.reachable.Nodup := Walk.nodup_preorder g.nodup_mentioned

theorem Reaches.child {id c : NodeId} {node : Node} (h : g.Reaches id)
    (hn : g.get? id = some node) (hc : c ∈ node.kind.children) : g.Reaches c :=
  h.tail (by simpa [Refers, g.childrenOf_eq hn] using hc)

end TypeGraph

/-! ## Kinds under a renumbering -/

namespace Kind

theorem mapChildren_congr {f h : NodeId → NodeId} {kind : Kind}
    (hc : ∀ c ∈ kind.children, f c = h c) : kind.mapChildren f = kind.mapChildren h := by
  cases kind with
  | interface members supers =>
      simp only [children, List.mem_append, List.mem_map] at hc
      have hm : ∀ m ∈ members, f m.node = h m.node := fun m hm => hc _ (.inl ⟨m, hm, rfl⟩)
      have hs : ∀ s ∈ supers, f s = h s := fun s hs => hc s (.inr hs)
      simp only [mapChildren, interface.injEq, List.map_inj_left]
      exact ⟨fun m hmem => by rw [hm m hmem], hs⟩
  | _ => simp_all [mapChildren, children]

end Kind

end Typewright
