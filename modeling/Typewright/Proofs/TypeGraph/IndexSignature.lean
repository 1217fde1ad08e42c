import Typewright.Proofs.TypeGraph.Kept
import Typewright.Proofs.TypeGraph.Member

/-!
# Index signatures under simplification

A simplification relaxes each member of an interface whose type is an unnamed union with
`undefined`, the index signature as well. Whether `undefined` can get into such a union is seen in
the graph before: what makes a union only brings together members of the combinations below it
(`TypeGraph.MayBeUndefined`). Where the type of an index signature has a name or has no `undefined`
below, the index signature stays required (`TypeGraph.required_simplify`).
-/

namespace Typewright

namespace Kind

/-- A kind is the text `undefined`, or a combination with a member that may be `undefined`. -/
def MayBeUndefined (may : NodeId → Prop) : Kind → Prop
  | .customType text | .reference text => text = "undefined"
  | .union cs | .intersection cs => ∃ c ∈ cs, may c
  | _ => False

variable {may : NodeId → Prop} {f : NodeId → NodeId} {kind : Kind}

theorem mayBeUndefined_combination {isUnion : Bool} {cs : List NodeId} :
    (combination isUnion cs).MayBeUndefined may ↔ ∃ c ∈ cs, may c := by
  cases isUnion <;> exact .rfl

theorem mayBeUndefined_mapChildren :
    (kind.mapChildren f).MayBeUndefined may ↔ kind.MayBeUndefined fun c => may (f c) := by
  cases kind <;> simp [mapChildren, MayBeUndefined]

theorem MayBeUndefined.mono {may' : NodeId → Prop} (h : kind.MayBeUndefined may)
    (hmono : ∀ c, may c → may' c) : kind.MayBeUndefined may' := by
  cases kind with
  | union cs => exact h.imp fun c hc => hc.imp_right (hmono c)
  | intersection cs => exact h.imp fun c hc => hc.imp_right (hmono c)
  | _ => exact h

end Kind

/-- The text `undefined` stands at a node or below it, where only unions and intersections lie
between. -/
inductive TypeGraph.MayBeUndefined (g : TypeGraph) : NodeId → Prop
  | text {id : NodeId} {node : Node} (get : g.get? id = some node)
      (kind : node.kind = .customType "undefined" ∨ node.kind = .reference "undefined") :
      MayBeUndefined g id
  | member {id c : NodeId} {node : Node} {isUnion : Bool} {cs : List NodeId}
      (get : g.get? id = some node) (kind : node.kind = .combination isUnion cs) (mem : c ∈ cs)
      (h : MayBeUndefined g c) : MayBeUndefined g id

/-- The index signatures of an interface are required, and none has a type that may be `undefined`,
unless the type has a name. -/
def TypeGraph.Required (g : TypeGraph) (may : NodeId → Prop) (kind : Kind) : Prop :=
  ∀ members supers, kind = .interface members supers → ∀ m ∈ members, m.IsIndex →
    m.required = true ∧ ((∃ name, g.Holds m.node name) ∨ ¬ may m.node)

namespace Stage

variable {keep : Bool} {s t : Stage} {may : NodeId → Prop}

/-- What is known of index signatures between two edits, where `may` holds of the nodes that may be
`undefined`, all those that are added later among them. -/
structure Indexed (may : NodeId → Prop) (s : Stage) : Prop where
  kind : ∀ id node, s.work.graph.get? id = some node → node.kind.MayBeUndefined may → may id
  lead : ∀ a b, s.work.Leads a b → may b → may a
  rest : ∀ u n, (u, n) ∈ s.rests → may u
  later : ∀ id, s.work.graph.size ≤ id → may id
  index : ∀ id node, s.work.graph.get? id = some node → s.work.graph.Required may node.kind

namespace Indexed

theorem not_may_resolve (h : s.Indexed may) {id : NodeId} (hid : ¬ may id) :
    ¬ may (s.work.resolve id) :=
  s.work.resolve_induction (P := fun i => ¬ may i) hid fun a b hl ha hb => ha (h.lead a b hl hb)

theorem not_may_child (h : s.Indexed may) {id c : NodeId} {node : Node} {isUnion : Bool}
    {cs : List NodeId} (get : s.work.graph.get? id = some node)
    (kind : node.kind = .combination isUnion cs) (hid : ¬ may id) (hc : c ∈ cs) : ¬ may c :=
  fun hmay => hid (h.kind id node get (kind ▸ Kind.mayBeUndefined_combination.2 ⟨c, hc, hmay⟩))

/-- What a combination is left with may be `undefined` only if the combination may. -/
theorem not_may_members (h : s.Indexed may) {id m : NodeId} {node : Node} {isUnion : Bool}
    {cs : List NodeId} (get : s.work.graph.get? id = some node)
    (kind : node.kind = .combination isUnion cs) (hid : ¬ may id)
    (hm : m ∈ s.work.members id isUnion cs) : ¬ may m := by
  refine s.work.of_mem_flatten (P := fun i => ¬ may i)
    (fun c hc => h.not_may_resolve (h.not_may_child get kind hid hc))
    (fun c inner hc hinner hdis d hd => ?_) (s.work.mem_dropDuplicates hm)
  obtain ⟨-, -, hkind⟩ := Reduction.dissolves_iff.1 hdis
  exact h.not_may_resolve (h.not_may_child hinner hkind hc hd)

/-- A rewritten node may be `undefined` only if it might before. -/
theorem rewrite_kind (h : s.Indexed may) {id : NodeId} {node node' : Node}
    (get : s.work.graph.get? id = some node) (hr : Rewrite keep s id node node')
    (hmay : node'.kind.MayBeUndefined may) : may id := by
  by_contra hid
  cases hr with
  | resolve =>
      refine hid (h.kind id node get ((Kind.mayBeUndefined_mapChildren.1 hmay).mono fun c hc => ?_))
      exact by_contra fun hnot => h.not_may_resolve hnot hc
  | combine kind =>
      obtain ⟨c, hc, hmay⟩ := Kind.mayBeUndefined_combination.1 hmay
      exact h.not_may_members get kind hid hc hmay
  | absorb => exact hmay
  | @copy only child isUnion cs kind single any ne member =>
      exact h.not_may_members get kind hid (single ▸ List.mem_singleton_self only)
        (h.kind only child member hmay)
  | interface => exact hmay

/-- A rewritten interface keeps its index signatures required. -/
theorem rewrite_required (h : s.Indexed may) (ho : s.Oriented) (hrest : s.Rested) {id : NodeId}
    {node node' : Node} (get : s.work.graph.get? id = some node)
    (hr : Rewrite keep s id node node') : s.work.graph.Required may node'.kind := by
  have hold := h.index id node get
  intro members' supers' hkind m' hm' hindex
  cases hr with
  | resolve =>
      obtain ⟨members, supers, hk, rfl, -⟩ := Kind.of_mapChildren_interface hkind
      obtain ⟨m, hm, rfl⟩ := List.mem_map.1 hm'
      obtain ⟨hrequired, hnamed | hmay⟩ := hold members supers hk m hm hindex
      · obtain ⟨name, old, hn, hname⟩ := hnamed
        have hself := (ho.free hn (by simp [hname])).resolve_eq
        exact ⟨hrequired, .inl ⟨name, old, hself.symm ▸ hn, hname⟩⟩
      · exact ⟨hrequired, .inr (h.not_may_resolve hmay)⟩
  | @combine isUnion => cases isUnion <;> cases hkind
  | absorb => cases hkind
  | copy _ _ _ _ member => exact h.index _ _ member members' supers' hkind m' hm' hindex
  | @interface members _ supers kind relaxed =>
      obtain ⟨rfl, rfl⟩ := Kind.interface.inj hkind
      obtain ⟨m, hm, hrelaxed⟩ := exists_of_forall₂_left relaxed.flip hm'
      have hmember := hold members supers kind m (kept_subset hm)
      cases hrelaxed with
      | same => exact hmember hindex
      | rest hmem =>
          -- a relaxed member has an unnamed type that may be `undefined`
          obtain ⟨-, ⟨name, other, hother, hname⟩ | hmay⟩ := hmember hindex
          · obtain ⟨union, hunion, hnone⟩ := hrest _ _ hmem
            obtain rfl := Option.some.inj (hunion.symm.trans hother)
            cases hnone.symm.trans hname
          · exact absurd (h.rest _ _ hmem) hmay

theorem edit (h : s.Indexed may) (ho : s.Oriented) (hrest : s.Rested) (he : Edit keep s t) :
    t.Indexed may where
  kind id node' get' hmay := by
    rcases he.of_get? get' with get | ⟨node, -, get, hr⟩ | ⟨rfl, -⟩
    · exact h.kind id node' get hmay
    · exact h.rewrite_kind get hr hmay
    · exact h.later _ (Nat.le_refl _)
  lead a b hl hb := by
    cases he with
    | @redirect id only node child isUnion cs live get kind single =>
        rcases s.leads_redirect id only hl with ⟨rfl, rfl⟩ | ⟨-, hl⟩
        · by_contra ha
          exact h.not_may_members get kind ha (single ▸ List.mem_singleton_self _) hb
        · exact h.lead a b hl hb
    | _ => exact h.lead a b hl hb
  rest v n hmem := by
    cases he with
    | @branch u node branches live get kind unnamed undef =>
        rcases List.mem_cons.1 hmem with heq | hmem
        · obtain ⟨rfl, -⟩ := Prod.mk.inj heq
          -- one of the branches that are left out is the text `undefined`
          obtain ⟨b, hb, hundef⟩ : ∃ b ∈ branches, s.work.isUndefined b = true := by
            by_contra hnone
            refine undef (congrArg List.length (List.filter_eq_self.2 fun b hb => ?_))
            simpa using fun hu => hnone ⟨b, hb, hu⟩
          refine h.kind _ node get (kind ▸ ⟨b, hb, ?_⟩)
          unfold Reduction.isUndefined at hundef
          split at hundef
          · cases hundef
          · rename_i inner hinner
            refine h.kind b inner hinner ?_
            split at hundef
            · rename_i text hk
              exact hk ▸ eq_of_beq hundef
            · rename_i text hk
              exact hk ▸ eq_of_beq hundef
            · cases hundef
        · exact h.rest v n hmem
    | @restate u n mem =>
        rcases List.mem_cons.1 hmem with heq | hmem
        · obtain ⟨rfl, -⟩ := Prod.mk.inj heq
          exact h.rest _ _ mem
        · exact h.rest v _ hmem
    | _ => exact h.rest v n hmem
  later id hid := by
    refine h.later id (Nat.le_trans ?_ hid)
    cases he with
    | branch => simp
    | restate => exact Nat.le_refl _
    | _ => simp
  index id node' get' members supers hkind m hm hindex := by
    have hrequired : s.work.graph.Required may node'.kind := by
      rcases he.of_get? get' with get | ⟨node, -, get, hr⟩ | ⟨-, _, _, _, -, -, -, -, -, hunion⟩
      · exact h.index id node' get
      · exact h.rewrite_required ho hrest get hr
      · intro _ _ hk
        rw [hunion] at hk
        cases hk
    obtain ⟨hreq, htype⟩ := hrequired members supers hkind m hm hindex
    exact ⟨hreq, htype.imp_left (Exists.imp fun _ => he.holds)⟩

theorem edits (h : s.Indexed may) (ho : s.Oriented) (hrest : s.Rested) (he : Edits keep s t) :
    t.Indexed may := by
  have hall : t.Oriented ∧ t.Rested ∧ t.Indexed may := by
    induction he with
    | refl => exact ⟨ho, hrest, h⟩
    | tail _ he ih =>
        obtain ⟨ho, hrest, h⟩ := ih
        exact ⟨ho.edit he, hrest.edit he, h.edit ho hrest he⟩
  exact hall.2.2

end Indexed

end Stage

namespace TypeGraph

variable {g : TypeGraph}

/-- At the start the nodes that may be `undefined` are those of the graph, and all new ones. -/
theorem indexed_start (hg : g.WellFormed)
    (h : ∀ id node, g.get? id = some node → g.Required g.MayBeUndefined node.kind) :
    (Stage.start g).Indexed fun id => g.size ≤ id ∨ g.MayBeUndefined id where
  kind id node get hmay := by
    have hmember : ∀ isUnion {cs}, node.kind = .combination isUnion cs →
        (∃ c ∈ cs, g.size ≤ c ∨ g.MayBeUndefined c) → g.MayBeUndefined id := by
      rintro isUnion cs hkind ⟨c, hc, hmay⟩
      have hlt := hg.children id node get c (by rwa [hkind, Kind.children_combination])
      exact .member get hkind hc (hmay.resolve_left (Nat.not_le.2 hlt))
    unfold Kind.MayBeUndefined at hmay
    split at hmay
    · exact .inr (.text get (.inl (hmay ▸ ‹_›)))
    · exact .inr (.text get (.inr (hmay ▸ ‹_›)))
    · exact .inr (hmember true ‹_› hmay)
    · exact .inr (hmember false ‹_› hmay)
    · exact hmay.elim
  lead a b hl := nomatch hl
  rest u n hmem := nomatch hmem
  later id hid := .inl hid
  index id node get members supers hkind m hm hindex := by
    obtain ⟨hrequired, htype⟩ := h id node get members supers hkind m hm hindex
    refine ⟨hrequired, htype.imp_right fun hmay hor => ?_⟩
    have hlt := hg.children id node get m.node (by
      rw [hkind]
      exact List.mem_append_left _ (List.mem_map_of_mem hm))
    exact hmay (hor.resolve_left (Nat.not_le.2 hlt))

/-- An index signature stays required, if its type has a name or has no `undefined` below. -/
theorem required_simplify (hg : g.WellFormed)
    (h : ∀ id node, g.get? id = some node → g.Required g.MayBeUndefined node.kind) (keep : Bool)
    {id : NodeId} {node : Node} {members : List InterfaceMember} {supers : List NodeId}
    (get : (g.simplify keep).get? id = some node) (kind : node.kind = .interface members supers)
    {m : InterfaceMember} (hm : m ∈ members) (hindex : m.IsIndex) : m.required = true := by
  obtain ⟨t, he, -, heq⟩ := simplify_eq keep hg.inside
  rw [heq] at get
  obtain ⟨i, old, -, hold, rfl⟩ := t.work.get?_compact_eq_some get
  obtain ⟨members, supers, hkind, rfl, rfl⟩ := Kind.of_mapChildren_interface kind
  obtain ⟨before, hbefore, rfl⟩ := List.mem_map.1 hm
  have hindexed := (indexed_start hg h).edits (Stage.oriented_start g) (fun _ _ h => nomatch h) he
  exact (hindexed.index i old hold members supers hkind before hbefore hindex).1

end TypeGraph

end Typewright
