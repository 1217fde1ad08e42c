import Typewright.Proofs.Json.Keys
import Typewright.Proofs.TypeGraph.Edit
import Typewright.Proofs.TypeGraph.Fingerprint

/-!
# The JSON values of a type

Membership is read off a graph: `any` has all values, a union those of some child, an intersection
those of all children, and an interface the objects that have its required members, whose values are
of the types of their members, and that hold nothing else but what its index signature allows. A
value belongs to a node if finitely many steps show it (`TypeGraph.Member`), so a recursive type has
no values that only an infinite unfolding would give it.
-/

namespace Typewright

/-- A value that is neither an array nor an object. -/
def Json.isPrimitive : Json → Bool
  | .array _ | .object _ => false
  | _ => true

/-! ## Interfaces -/

namespace InterfaceMember

/-- A member that stands in the text of its interface. -/
def isWritten (m : InterfaceMember) : Bool := !m.pattern && !m.unreachable

/-- The index signature of an interface. -/
def IsIndex (m : InterfaceMember) : Prop :=
  m.key = indexSignature ∧ m.pattern = false ∧ m.unreachable = false

/-- A member that is written with its own key. -/
def IsField (m : InterfaceMember) : Prop :=
  m.key ≠ indexSignature ∧ m.pattern = false ∧ m.unreachable = false

/-- A key of an object that no member of an interface is written with. -/
def Foreign (members : List InterfaceMember) (key : String) : Prop :=
  ∀ m ∈ members, m.IsField → m.key ≠ key

/-- The objects of an interface, where `F` says what belongs to its children. -/
structure Admits (F : NodeId → Json → Prop) (members : List InterfaceMember) (fields : Members) :
    Prop where
  /-- A required member is there. -/
  required : ∀ m ∈ members, m.IsField → m.required = true → m.key ∈ Members.keys fields
  /-- What stands under the key of a member is of its type. -/
  field : ∀ m ∈ members, m.IsField → ∀ v, (m.key, v) ∈ fields → F m.node v
  /-- There is an index signature for all other keys. -/
  indexed : ∀ f ∈ fields, Foreign members f.1 → ∃ m ∈ members, m.IsIndex
  /-- What stands under another key is of the type of the index signature. -/
  index : ∀ f ∈ fields, Foreign members f.1 → ∀ m ∈ members, m.IsIndex → F m.node f.2

end InterfaceMember

/-! ## Kinds -/

section Kinds

variable {same : Json → Json → Bool} {F G : NodeId → Json → Prop} {v : Json}

/-- The values of a kind, where `same` says which values are equal and `F` what belongs to its
children. Opaque texts, `never` among them, have no values. -/
def Kind.Admits (same : Json → Json → Bool) (F : NodeId → Json → Prop) : Kind → Json → Prop
  | .any, _ => True
  | .null, v => v = .null
  | .boolean, v => ∃ b, v = .bool b
  | .number, v => ∃ n, v = .number n
  | .string, v => ∃ s, v = .string s
  | .object, v => v.isPrimitive = false
  | .literal value, v => same value v = true
  | .enum members, v => ∃ m ∈ members, F m.node v
  | .union cs, v => ∃ c ∈ cs, F c v
  | .intersection cs, v => ∀ c ∈ cs, F c v
  | .array c, v => ∃ items, v = .array items ∧ ∀ x ∈ items, F c x
  | .tuple cs, v => ∃ items, v = .array items ∧ List.Forall₂ F cs items
  | .interface members supers, v =>
    (∃ fields, v = .object fields ∧ InterfaceMember.Admits F members fields) ∧ ∀ c ∈ supers, F c v
  | .customType _, _ | .reference _, _ => False

theorem InterfaceMember.Admits.mono {members : List InterfaceMember} {fields : Members}
    (h : Admits F members fields) (hF : ∀ m ∈ members, ∀ v, F m.node v → G m.node v) :
    Admits G members fields where
  required := h.required
  field m hm hfield v hv := hF m hm v (h.field m hm hfield v hv)
  indexed := h.indexed
  index f hf hforeign m hm hindex := hF m hm f.2 (h.index f hf hforeign m hm hindex)

/-- The more values the children have, the more values a kind has. -/
theorem Kind.Admits.mono {kind : Kind} (h : kind.Admits same F v)
    (hF : ∀ c ∈ kind.children, ∀ v, F c v → G c v) : kind.Admits same G v := by
  cases kind with
  | enum members =>
      obtain ⟨m, hm, h⟩ := h
      exact ⟨m, hm, hF _ (List.mem_map_of_mem hm) v h⟩
  | union cs =>
      obtain ⟨c, hc, h⟩ := h
      exact ⟨c, hc, hF c hc v h⟩
  | intersection cs => exact fun c hc => hF c hc v (h c hc)
  | array c =>
      obtain ⟨items, rfl, h⟩ := h
      exact ⟨items, rfl, fun x hx => hF c List.mem_cons_self x (h x hx)⟩
  | tuple cs =>
      obtain ⟨items, rfl, h⟩ := h
      refine ⟨items, rfl, ?_⟩
      induction h with
      | nil => exact .nil
      | cons hx _ ih =>
          exact .cons (hF _ List.mem_cons_self _ hx)
            (ih fun c hc => hF c (List.mem_cons_of_mem _ hc))
  | interface members supers =>
      obtain ⟨⟨fields, rfl, h⟩, hs⟩ := h
      refine ⟨⟨fields, rfl, h.mono fun m hm => hF _ ?_⟩, fun c hc => hF c ?_ _ (hs c hc)⟩
      · exact List.mem_append_left _ (List.mem_map_of_mem hm)
      · exact List.mem_append_right _ hc
  | _ => exact h

theorem InterfaceMember.admits_mapNodes (f : NodeId → NodeId) (members : List InterfaceMember)
    (fields : Members) : Admits F (members.map fun m => { m with node := f m.node }) fields ↔
      Admits (fun c => F (f c)) members fields := by
  have hforeign : ∀ key, Foreign (members.map fun m => { m with node := f m.node }) key ↔
      Foreign members key := fun key => List.forall_mem_map
  constructor
  · rintro ⟨hr, hf, hi, hx⟩
    simp only [hforeign, List.forall_mem_map] at hr hf hi hx
    refine ⟨hr, hf, fun g hg hfor => ?_, hx⟩
    obtain ⟨m', hm', hindex⟩ := hi g hg hfor
    obtain ⟨m, hm, rfl⟩ := List.mem_map.1 hm'
    exact ⟨m, hm, hindex⟩
  · rintro ⟨hr, hf, hi, hx⟩
    refine ⟨List.forall_mem_map.2 hr, List.forall_mem_map.2 hf, fun g hg hfor => ?_,
      fun g hg hfor => List.forall_mem_map.2 (hx g hg ((hforeign _).1 hfor))⟩
    obtain ⟨m, hm, hindex⟩ := hi g hg ((hforeign _).1 hfor)
    exact ⟨_, List.mem_map_of_mem hm, hindex⟩

theorem Kind.admits_mapChildren (f : NodeId → NodeId) (kind : Kind) :
    (kind.mapChildren f).Admits same F v ↔ kind.Admits same (fun c => F (f c)) v := by
  cases kind with
  | interface members supers =>
      simp only [mapChildren, Admits, List.forall_mem_map, InterfaceMember.admits_mapNodes]
  | _ => simp [mapChildren, Admits]

namespace Kind

variable {R : NodeId → NodeId → Prop}

theorem MemberAlike.isField {m n : InterfaceMember} (h : MemberAlike R m n) :
    m.IsField ↔ n.IsField := by
  obtain ⟨hkey, -, hp, hu, -⟩ := h
  rw [InterfaceMember.IsField, InterfaceMember.IsField, hkey, hp, hu]

theorem MemberAlike.isIndex {m n : InterfaceMember} (h : MemberAlike R m n) :
    m.IsIndex ↔ n.IsIndex := by
  obtain ⟨hkey, -, hp, hu, -⟩ := h
  rw [InterfaceMember.IsIndex, InterfaceMember.IsIndex, hkey, hp, hu]

theorem MemberAlike.flip {m n : InterfaceMember} (h : MemberAlike R m n) :
    MemberAlike (fun a b => R b a) n m :=
  ⟨h.1.symm, h.2.1.symm, h.2.2.1.symm, h.2.2.2.1.symm, h.2.2.2.2⟩

/-- Kinds that are alike are alike the other way round. -/
theorem Alike.flip {k l : Kind} (h : k.Alike R l) : l.Alike (fun a b => R b a) k := by
  cases h with
  | leaf hleaf => exact .leaf hleaf
  | array h => exact .array h
  | tuple h => exact .tuple h.flip
  | union h => exact .union h.flip
  | intersection h => exact .intersection h.flip
  | enum h => exact .enum (h.flip.imp fun _ _ hmn => ⟨hmn.1.symm, hmn.2⟩)
  | interface hm hs => exact .interface (hm.flip.imp fun _ _ => MemberAlike.flip) hs.flip

section Alike

variable (hR : ∀ a b, R a b → ∀ v, F a v → G b v)

include hR

theorem admits_of_membersAlike {ms ns : List InterfaceMember} {fields : Members}
    (h : List.Forall₂ (MemberAlike R) ms ns) (hms : InterfaceMember.Admits F ms fields) :
    InterfaceMember.Admits G ns fields := by
  have hright : ∀ n ∈ ns, ∃ m ∈ ms, MemberAlike R m n := fun n hn => by
    exact exists_of_forall₂_left h.flip hn
  have hforeign : ∀ {key}, InterfaceMember.Foreign ns key → InterfaceMember.Foreign ms key := by
    intro key hkey m hm hfield heq
    obtain ⟨n, hn, hmn⟩ := exists_of_forall₂_left h hm
    exact hkey n hn (hmn.isField.1 hfield) (hmn.1 ▸ heq)
  refine ⟨fun n hn hfield hreq => ?_, fun n hn hfield v hv => ?_, fun f hf hfor => ?_,
    fun f hf hfor n hn hindex => ?_⟩
  · obtain ⟨m, hm, hmn⟩ := hright n hn
    exact hmn.1 ▸ hms.required m hm (hmn.isField.2 hfield) (hmn.2.1.trans hreq)
  · obtain ⟨m, hm, hmn⟩ := hright n hn
    exact hR _ _ hmn.2.2.2.2 v (hms.field m hm (hmn.isField.2 hfield) v (hmn.1 ▸ hv))
  · obtain ⟨m, hm, hindex⟩ := hms.indexed f hf (hforeign hfor)
    obtain ⟨n, hn, hmn⟩ := exists_of_forall₂_left h hm
    exact ⟨n, hn, hmn.isIndex.1 hindex⟩
  · obtain ⟨m, hm, hmn⟩ := hright n hn
    exact hR _ _ hmn.2.2.2.2 f.2
      (hms.index f hf (hforeign hfor) m hm (hmn.isIndex.2 hindex))

/-- Kinds that are alike but for children with more values have more values. -/
theorem Alike.admits {k l : Kind} (h : k.Alike R l) (hk : k.Admits same F v) :
    l.Admits same G v := by
  cases h with
  | leaf hleaf => exact hk.mono fun c hc => by rw [hleaf] at hc; cases hc
  | array h =>
      obtain ⟨items, rfl, hk⟩ := hk
      exact ⟨items, rfl, fun x hx => hR _ _ h x (hk x hx)⟩
  | tuple h =>
      obtain ⟨items, rfl, hk⟩ := hk
      refine ⟨items, rfl, ?_⟩
      induction h generalizing items with
      | nil => cases hk; exact .nil
      | cons hab _ ih =>
          cases hk with
          | cons hx hrest => exact .cons (hR _ _ hab _ hx) (ih _ hrest)
  | union h =>
      obtain ⟨c, hc, hv⟩ := hk
      obtain ⟨d, hd, hcd⟩ := exists_of_forall₂_left h hc
      exact ⟨d, hd, hR _ _ hcd v hv⟩
  | intersection h =>
      intro d hd
      obtain ⟨c, hc, hcd⟩ := exists_of_forall₂_left h.flip hd
      exact hR _ _ hcd v (hk c hc)
  | enum h =>
      obtain ⟨m, hm, hv⟩ := hk
      obtain ⟨n, hn, hmn⟩ := exists_of_forall₂_left h hm
      exact ⟨n, hn, hR _ _ hmn.2 v hv⟩
  | interface hm hs =>
      obtain ⟨⟨fields, rfl, hms⟩, hsupers⟩ := hk
      refine ⟨⟨fields, rfl, admits_of_membersAlike hR hm hms⟩, fun d hd => ?_⟩
      obtain ⟨c, hc, hcd⟩ := exists_of_forall₂_left hs.flip hd
      exact hR _ _ hcd _ (hsupers c hc)

end Alike

end Kind

end Kinds

/-! ## Nodes -/

namespace TypeGraph

variable {same : Json → Json → Bool} {g : TypeGraph} {resolve : NodeId → NodeId} {v : Json}

/-- The values that `n` steps show to belong to a node. -/
def Within (same : Json → Json → Bool) (g : TypeGraph) (resolve : NodeId → NodeId) :
    Nat → NodeId → Json → Prop
  | 0, _, _ => False
  | n + 1, id, v =>
    ∃ node, g.get? (resolve id) = some node ∧ node.kind.Admits same (Within same g resolve n) v

theorem Within.succ {n : Nat} {id : NodeId} (h : g.Within same resolve n id v) :
    g.Within same resolve (n + 1) id v := by
  induction n generalizing id v with
  | zero => exact h.elim
  | succ n ih =>
      obtain ⟨node, hn, h⟩ := h
      exact ⟨node, hn, h.mono fun _ _ _ => ih⟩

/-- More steps show more values. -/
theorem Within.mono {m n : Nat} {id : NodeId} (h : g.Within same resolve m id v) (hmn : m ≤ n) :
    g.Within same resolve n id v := by
  induction hmn with
  | refl => exact h
  | step _ ih => exact ih.succ

/-- Graphs with the same nodes have the same values, whatever their roots are. -/
theorem Within.congr {g' : TypeGraph} (hget : g'.get? = g.get?) {n : Nat} {id : NodeId}
    (h : g.Within same resolve n id v) : g'.Within same resolve n id v := by
  induction n generalizing id v with
  | zero => exact h.elim
  | succ n ih =>
      obtain ⟨node, hn, h⟩ := h
      exact ⟨node, hget ▸ hn, h.mono fun _ _ _ => ih⟩

/-- The values of the type of a node, where `same` says which values are equal. -/
def Member (same : Json → Json → Bool) (g : TypeGraph) (id : NodeId) (v : Json) : Prop :=
  ∃ n, g.Within same (fun i => i) n id v

end TypeGraph

end Typewright
