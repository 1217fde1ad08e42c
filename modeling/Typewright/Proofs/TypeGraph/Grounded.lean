import Mathlib.Data.Fintype.EquivFin
import Mathlib.Order.WellFounded
import Typewright.Proofs.TypeGraph.Stable

/-!
# Built graphs without cycles

A node is grounded if it leads to built nodes alone and never back, so what it stands for is a
finite tree in which parts may be shared. The fingerprint of such a node is that of the tree: it
mentions no numbers, and is the same in every graph that holds the same nodes under other numbers
(`Copies.fingerprint_eq`).
-/

namespace Typewright

theorem Kind.fingerprint_mapChildren (f : NodeId → NodeId) (kind : Kind) (parts : List String) :
    (kind.mapChildren f).fingerprint parts = kind.fingerprint parts := by
  cases kind <;> simp [mapChildren, fingerprint, List.zipWith_map_left, memberMark]

namespace Reduction

variable {w v : Reduction} {P Q : NodeId → Node → Prop} {f : NodeId → NodeId} {a : NodeId}

/-- A node leads to built nodes alone, along no cycle and past no redirect, and all are as `P`
says. -/
inductive Grounded (w : Reduction) (P : NodeId → Node → Prop) : NodeId → Prop where
  | node {id : NodeId} {node : Node} (get : w.graph.get? id = some node) (free : w.Free id)
      (holds : P id node) (children : ∀ c ∈ node.kind.children, Grounded w P c) : Grounded w P id

theorem Grounded.exists_get? (h : w.Grounded P a) :
    ∃ node, w.graph.get? a = some node ∧ P a node ∧ ∀ c ∈ node.kind.children, w.Grounded P c := by
  cases h with
  | node get _ holds children => exact ⟨_, get, holds, children⟩

theorem Grounded.of_get? (h : w.Grounded P a) {node : Node} (get : w.graph.get? a = some node) :
    P a node ∧ ∀ c ∈ node.kind.children, w.Grounded P c := by
  obtain ⟨node', get', holds, children⟩ := h.exists_get?
  obtain rfl := Option.some.inj (get.symm.trans get')
  exact ⟨holds, children⟩

theorem Grounded.resolve_eq (h : w.Grounded P a) : w.resolve a = a := by
  cases h with
  | node _ free => exact free.resolve_eq

theorem Grounded.lt_size (h : w.Grounded P a) : a < w.graph.size := by
  obtain ⟨node, get, -⟩ := h.exists_get?
  exact w.graph.lt_size_of_get? get

theorem Grounded.refers (h : w.Grounded P a) {b : NodeId} (hab : w.graph.Refers a b) :
    w.Grounded P b := by
  obtain ⟨node, get, -, children⟩ := h.exists_get?
  exact children b (by rwa [TypeGraph.Refers, w.graph.childrenOf_eq get] at hab)

theorem Grounded.reaches (h : w.Grounded P a) {b : NodeId}
    (hab : Relation.ReflTransGen w.graph.Refers a b) : w.Grounded P b := by
  induction hab with
  | refl => exact h
  | tail _ hbc ih => exact ih.refers hbc

/-- A grounded node does not lead back to itself. -/
theorem Grounded.not_transGen (h : w.Grounded P a) : ¬ Relation.TransGen w.graph.Refers a a := by
  induction h with
  | @node id node get _ _ _ ih =>
      intro hcycle
      obtain ⟨c, hc, hback⟩ := Relation.TransGen.head'_iff.1 hcycle
      have hmem : c ∈ node.kind.children := by
        rwa [TypeGraph.Refers, w.graph.childrenOf_eq get] at hc
      exact ih c hmem (.tail' hback hc)

/-- What holds of grounded nodes with their parts holds of them all. -/
theorem Grounded.of_forall (h : w.Grounded P a)
    (hQ : ∀ id node, w.graph.get? id = some node → P id node →
      (∀ c ∈ node.kind.children, w.Grounded P c) → Q id node) : w.Grounded Q a := by
  induction h with
  | node get free holds children ih => exact .node get free (hQ _ _ get holds children) ih

/-! ## The same nodes in another graph -/

/-- The grounded nodes of a graph are in another one, under the numbers that `f` gives them. -/
structure Copies (w v : Reduction) (P : NodeId → Node → Prop) (f : NodeId → NodeId) : Prop where
  get : ∀ a node, w.Grounded P a → w.graph.get? a = some node →
    v.graph.get? (f a) = some { node with kind := node.kind.mapChildren f }
  free : ∀ a, w.Grounded P a → v.Free (f a)
  inj : ∀ a b, w.Grounded P a → w.Grounded P b → f a = f b → a = b

theorem Copies.resolve_eq (h : w.Copies v P f) (ha : w.Grounded P a) : v.resolve (f a) = f a :=
  (h.free a ha).resolve_eq

theorem Copies.grounded (h : w.Copies v P f) (ha : w.Grounded P a)
    (hQ : ∀ id node, w.graph.get? id = some node → P id node →
      (∀ c ∈ node.kind.children, w.Grounded P c) →
      Q (f id) { node with kind := node.kind.mapChildren f }) : v.Grounded Q (f a) := by
  induction ha with
  | @node id node get free holds children ih =>
      have hid : w.Grounded P id := .node get free holds children
      refine .node (h.get id node hid get) (h.free id hid) (hQ id node get holds children)
        fun c hc => ?_
      rw [Kind.children_mapChildren] at hc
      obtain ⟨d, hd, rfl⟩ := List.mem_map.1 hc
      exact ih d hd

theorem Copies.fingerprintFrom_eq (h : w.Copies v P f) (ha : w.Grounded P a)
    {fresh fresh' : List NodeId} (hf : fresh.Nodup) (hf' : fresh'.Nodup)
    (hin : ∀ x, Relation.ReflTransGen w.graph.Refers a x → x ∈ fresh ∧ f x ∈ fresh') (top : Bool) :
    v.graph.fingerprintFrom v.resolve fresh' top (f a) =
      w.graph.fingerprintFrom w.resolve fresh top a := by
  induction ha generalizing fresh fresh' top with
  | @node id node get free holds children ih =>
      have hid : w.Grounded P id := .node get free holds children
      have hget : w.graph.get? (w.resolve id) = some node := by rwa [hid.resolve_eq]
      have hget' := h.get id node hid get
      rw [← h.resolve_eq hid] at hget'
      obtain ⟨hfresh, hfresh'⟩ := hin id .refl
      by_cases hname : top = true ∨ node.name = none
      · rw [fingerprintFrom_of_get? w.resolve hget hname,
          fingerprintFrom_of_get? v.resolve hget' hname, h.resolve_eq hid, hid.resolve_eq,
          if_pos hfresh, if_pos hfresh', Kind.fingerprint_mapChildren, Kind.children_mapChildren,
          List.map_map]
        refine congrArg _ (List.map_congr_left fun c hc => ?_)
        have hrefers : w.graph.Refers id c := by rwa [TypeGraph.Refers, w.graph.childrenOf_eq get]
        refine ih c hc (hf.erase _) (hf'.erase _) (fun x hx => ?_) false
        -- a part of a part is not the node itself
        have hne : x ≠ id := by
          rintro rfl
          exact hid.not_transGen (.head' hrefers hx)
        obtain ⟨hx₁, hx₂⟩ := hin x (.head hrefers hx)
        have hreach : w.Grounded P x := hid.reaches (.head hrefers hx)
        exact ⟨(List.mem_erase_of_ne hne).2 hx₁,
          (List.mem_erase_of_ne (mt (h.inj x id hreach hid) hne)).2 hx₂⟩
      · obtain ⟨htop, hsome⟩ := not_or.1 hname
        obtain rfl := Bool.eq_false_of_not_eq_true htop
        obtain ⟨name, hname⟩ := Option.ne_none_iff_exists'.1 hsome
        rw [fingerprintFrom_of_name w.resolve hget hname,
          fingerprintFrom_of_name v.resolve hget' hname]

/-- A grounded node has the same fingerprint wherever it is. -/
theorem Copies.fingerprint_eq (h : w.Copies v P f) (ha : w.Grounded P a) :
    v.graph.fingerprint v.resolve (f a) = w.graph.fingerprint w.resolve a := by
  refine h.fingerprintFrom_eq ha List.nodup_range List.nodup_range (fun x hx => ?_) true
  have hx := ha.reaches hx
  obtain ⟨node, get, -⟩ := hx.exists_get?
  have hlt := v.graph.lt_size_of_get? (h.get x node hx get)
  exact ⟨List.mem_range.2 hx.lt_size, List.mem_range.2 hlt⟩

/-- Nodes that stay where they are. -/
theorem copies_of_same (hget : ∀ a, w.Grounded P a → v.graph.get? a = w.graph.get? a)
    (hfree : ∀ a, w.Grounded P a → v.Free a) : w.Copies v P fun i => i where
  get a node ha get := by
    rw [hget a ha, get]
    exact congrArg some (congrArg (fun kind => { node with kind })
      (Kind.mapChildren_eq_self fun _ _ => rfl).symm)
  free := hfree
  inj _ _ _ _ heq := heq

end Reduction

/-! ## Graphs without cycles -/

/-- All that the root leads to is built. -/
def TypeGraph.Built (g : TypeGraph) : Prop := ∀ id, g.Reaches id → ∃ node, g.get? id = some node

/-- Nothing that the root leads to leads back to itself. -/
def TypeGraph.Acyclic (g : TypeGraph) : Prop :=
  ∀ id, g.Reaches id → ¬ Relation.TransGen g.Refers id id

/-- The root of a built graph without cycles is grounded. -/
theorem TypeGraph.Acyclic.grounded {g : TypeGraph} (ha : g.Acyclic) (hb : g.Built) :
    (⟨g, []⟩ : Reduction).Grounded (fun _ _ => True) g.root := by
  -- the slots are finitely many, so to lead to another one is well-founded where it is no cycle
  let Under (a b : Fin g.size) : Prop := g.Reaches b ∧ Relation.TransGen g.Refers b a
  have htrans : IsTrans (Fin g.size) Under := ⟨fun _ _ _ hab hbc => ⟨hbc.1, hbc.2.trans hab.2⟩⟩
  have hirrefl : Std.Irrefl Under := ⟨fun a haa => ha a haa.1 haa.2⟩
  have hwf : WellFounded Under := Finite.wellFounded_of_trans_of_irrefl Under
  have hall : ∀ i : Fin g.size, g.Reaches i →
      (⟨g, []⟩ : Reduction).Grounded (fun _ _ => True) i := by
    intro i
    induction i using hwf.induction with
    | _ i ih =>
        intro hi
        obtain ⟨node, get⟩ := hb i hi
        refine .node get (fun b hl => absurd hl List.not_mem_nil) trivial fun c hc => ?_
        have hrefers : g.Refers i c := by rwa [Refers, g.childrenOf_eq get]
        obtain ⟨child, hchild⟩ := hb c (hi.tail hrefers)
        exact ih ⟨c, g.lt_size_of_get? hchild⟩ ⟨hi, .single hrefers⟩ (hi.tail hrefers)
  obtain ⟨node, get⟩ := hb g.root .refl
  exact hall ⟨g.root, g.lt_size_of_get? get⟩ .refl

end Typewright
