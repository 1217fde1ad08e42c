import Mathlib.Data.Finset.Card
import Typewright.Proofs.TypeGraph.Compact

/-!
# Cycles of unnamed nodes

The text of an unnamed node contains those of its children, so no cycle may consist of unnamed nodes
alone. A `Ranking` gives each node a number that falls from an unnamed node to its children; a
finite graph has one iff each of its cycles passes through a named node. Every edit keeps a ranking,
in which named nodes stand lowest and a new node ranks like the union whose rest it is.
-/

namespace Typewright

namespace TypeGraph

variable (g : TypeGraph)

/-- An unnamed node refers to another one, so that its text contains the other's. -/
def Inlines (a b : NodeId) : Prop :=
  ∃ node, g.get? a = some node ∧ node.name = none ∧ b ∈ node.kind.children

/-- Every cycle through a node that the root reaches passes through a named node. -/
def CyclesNamed : Prop := ∀ id, g.Reaches id → ¬ Relation.TransGen g.Inlines id id

theorem refers_of_inlines {a b : NodeId} (h : g.Inlines a b) : g.Refers a b := by
  obtain ⟨node, hn, -, hb⟩ := h
  rwa [Refers, g.childrenOf_eq hn]

/-- A number for each node that falls from an unnamed node to its children. -/
structure Ranking (live : NodeId → Prop) (rank : NodeId → Nat) : Prop where
  inlines : ∀ a b, live a → g.Inlines a b → rank b < rank a
  named : ∀ id node, live id → g.get? id = some node → node.name.isSome → rank id = 0

/-- A finite graph without cycles of unnamed nodes has a ranking: each unnamed node is ranked by how
many nodes its text contains. -/
theorem exists_ranking (h : g.CyclesNamed) : ∃ rank, g.Ranking g.Reaches rank := by
  classical
  let unnamed (id : NodeId) : Prop := ∃ node, g.get? id = some node ∧ node.name = none
  let inside (id : NodeId) : Finset NodeId :=
    (Finset.range g.size).filter fun v => Relation.TransGen g.Inlines id v
  refine ⟨fun id => if unnamed id then (inside id).card + 1 else 0, fun a b ha hab => ?_, ?_⟩
  · obtain ⟨node, hn, hname, -⟩ := id hab
    have hua : unnamed a := ⟨node, hn, hname⟩
    simp only [if_pos hua]
    by_cases hub : unnamed b
    · simp only [if_pos hub, Nat.add_lt_add_iff_right]
      obtain ⟨nodeb, hnb, -⟩ := id hub
      have hb : g.Reaches b := ha.tail (g.refers_of_inlines hab)
      refine Finset.card_lt_card (Finset.ssubset_iff_of_subset ?_ |>.2 ⟨b, ?_, ?_⟩)
      · intro v hv
        simp only [inside, Finset.mem_filter] at hv ⊢
        exact ⟨hv.1, .head hab hv.2⟩
      · simp only [inside, Finset.mem_filter, Finset.mem_range]
        exact ⟨g.lt_size_of_get? hnb, .single hab⟩
      · simp only [inside, Finset.mem_filter, not_and]
        exact fun _ => h b hb
    · simp [if_neg hub]
  · intro i node _ hn hname
    have : ¬ unnamed i := by
      rintro ⟨node', hn', hname'⟩
      rw [hn] at hn'
      obtain rfl := Option.some.inj hn'
      simp [hname'] at hname
    simp [if_neg this]

variable {g}

theorem Ranking.lt_of_transGen {live : NodeId → Prop} {rank : NodeId → Nat}
    (h : g.Ranking live rank) (hlive : ∀ a b, live a → g.Refers a b → live b) {a b : NodeId}
    (ha : live a) (hab : Relation.TransGen g.Inlines a b) : rank b < rank a ∧ live b := by
  induction hab with
  | single hb => exact ⟨h.inlines _ _ ha hb, hlive _ _ ha (g.refers_of_inlines hb)⟩
  | tail _ hbc ih =>
      exact ⟨Nat.lt_trans (h.inlines _ _ ih.2 hbc) ih.1, hlive _ _ ih.2 (g.refers_of_inlines hbc)⟩

/-- A graph with a ranking has no cycle of unnamed nodes. -/
theorem Ranking.not_transGen {live : NodeId → Prop} {rank : NodeId → Nat}
    (h : g.Ranking live rank) (hlive : ∀ a b, live a → g.Refers a b → live b) {id : NodeId}
    (hid : live id) : ¬ Relation.TransGen g.Inlines id id := fun hcycle =>
  Nat.lt_irrefl _ (h.lt_of_transGen hlive hid hcycle).1

end TypeGraph

namespace Stage

variable {keep : Bool} {s t : Stage} {rank : NodeId → Nat}

/-! ## Edits keep a ranking -/

/-- A ranking that does not rise along redirects, nor from a union to its rest. -/
structure Ranked (s : Stage) (rank : NodeId → Nat) : Prop where
  ranking : s.work.graph.Ranking s.live rank
  lead : ∀ a b, s.work.Leads a b → rank b ≤ rank a
  rest : ∀ u n, (u, n) ∈ s.rests → rank n ≤ rank u

theorem Ranked.resolve_le (h : s.Ranked rank) (id : NodeId) :
    rank (s.work.resolve id) ≤ rank id :=
  s.work.resolve_induction (P := fun i => rank i ≤ rank id) (Nat.le_refl _) fun a b hl ha =>
    Nat.le_trans (h.lead a b hl) ha

theorem Ranked.child_lt (h : s.Ranked rank) {id c : NodeId} {node : Node} (live : s.live id)
    (get : s.work.graph.get? id = some node) (unnamed : node.name = none)
    (hc : c ∈ node.kind.children) : rank c < rank id :=
  h.ranking.inlines id c live ⟨node, get, unnamed, hc⟩

/-- What is left of the members of an unnamed combination ranks below it. -/
theorem Ranked.members_lt (h : s.Ranked rank) (hc : s.Closed) {id m : NodeId} {node : Node}
    {isUnion : Bool} {children : List NodeId} (live : s.live id)
    (get : s.work.graph.get? id = some node) (kind : node.kind = .combination isUnion children)
    (unnamed : node.name = none) (hm : m ∈ s.work.members id isUnion children) :
    rank m < rank id := by
  refine (s.work.of_mem_flatten (P := fun c => rank c < rank id ∧ s.live c) (fun c hmem => ?_)
    (fun c inner ⟨hlt, hlive⟩ hn hdis d hd => ?_) (s.work.mem_dropDuplicates hm)).1
  · have hmem : c ∈ node.kind.children := by rwa [kind, Kind.children_combination]
    exact ⟨Nat.lt_of_le_of_lt (h.resolve_le c) (h.child_lt live get unnamed hmem),
      hc.resolve (hc.child_of_get live get hmem)⟩
  · have hchild := h.child_lt hlive hn (Reduction.dissolves_iff.1 hdis).1 hd
    exact ⟨Nat.lt_of_le_of_lt (h.resolve_le d) (Nat.lt_trans hchild hlt),
      hc.resolve (hc.child_of_get hlive hn hd)⟩

/-- A node may be filled with what has the same name and lower children. -/
theorem Ranked.fill (h : s.Ranked rank) {id : NodeId} {node node' : Node}
    (get : s.work.graph.get? id = some node) (name : node'.name = node.name)
    (hc : node.name = none → ∀ c ∈ node'.kind.children, rank c < rank id) :
    (s.fill id node').Ranked rank where
  lead := h.lead
  rest := h.rest
  ranking := by
    have hlt := s.work.graph.lt_size_of_get? get
    constructor
    · rintro a b ha ⟨found, hfound, hunnamed, hb⟩
      rw [graph_fill, TypeGraph.get?_fill _ hlt] at hfound
      split at hfound
      · rename_i hid
        obtain rfl := Option.some.inj hfound
        exact hid ▸ hc (name ▸ hunnamed) b hb
      · exact h.ranking.inlines a b ha ⟨found, hfound, hunnamed, hb⟩
    · intro i found hi hfound hnamed
      rw [graph_fill, TypeGraph.get?_fill _ hlt] at hfound
      split at hfound
      · rename_i hid
        obtain rfl := Option.some.inj hfound
        rw [name] at hnamed
        exact h.ranking.named i node hi (hid ▸ get) hnamed
      · exact h.ranking.named i found hi hfound hnamed

theorem Ranked.relaxed (h : s.Ranked rank) {members members' : List InterfaceMember} {bound : Nat}
    (hm : ∀ m ∈ members, rank m.node < bound) (hr : List.Forall₂ s.Relaxed members members') :
    ∀ m ∈ members', rank m.node < bound := by
  induction hr with
  | nil => simp
  | cons hab _ ih =>
      intro m hmem
      rcases List.mem_cons.1 hmem with rfl | hmem
      · have hle := hm _ List.mem_cons_self
        cases hab with
        | same => exact hle
        | rest hu => exact Nat.lt_of_le_of_lt (h.rest _ _ hu) hle
      · exact ih (fun m hm' => hm m (List.mem_cons_of_mem _ hm')) m hmem

/-- What is written into the slot of an unnamed node has lower children. -/
theorem Ranked.rewrite (h : s.Ranked rank) (hc : s.Closed) {id : NodeId} {node node' : Node}
    (live : s.live id) (get : s.work.graph.get? id = some node) (unnamed : node.name = none)
    (hr : Rewrite keep s id node node') : ∀ c ∈ node'.kind.children, rank c < rank id := by
  intro c hmem
  cases hr with
  | resolve =>
      rw [Kind.children_mapChildren] at hmem
      obtain ⟨d, hd, rfl⟩ := List.mem_map.1 hmem
      exact Nat.lt_of_le_of_lt (h.resolve_le d) (h.child_lt live get unnamed hd)
  | combine kind any =>
      rw [Kind.children_combination] at hmem
      exact h.members_lt hc live get kind unnamed hmem
  | absorb => simp [Kind.children] at hmem
  | @copy only child isUnion children kind single any ne member hchild =>
      have honly : only ∈ s.work.members id isUnion children := single ▸ List.mem_singleton_self only
      have hlive : s.live only :=
        hc.members (fun d hd => hc.child_of_get live get (by rwa [kind, Kind.children_combination])) honly
      exact Nat.lt_trans (h.child_lt hlive member hchild hmem)
        (h.members_lt hc live get kind unnamed honly)
  | @interface members members' supers kind relaxed =>
      have hkind : ∀ c ∈ (Kind.interface members supers).children, rank c < rank id :=
        fun c hmem => h.child_lt live get unnamed (kind ▸ hmem)
      rcases List.mem_append.1 hmem with hmem | hmem
      · obtain ⟨m, hm, rfl⟩ := List.mem_map.1 hmem
        refine h.relaxed (fun m hm => hkind m.node ?_) relaxed m hm
        exact List.mem_append_left _ (List.mem_map_of_mem (kept_subset hm))
      · exact hkind c (List.mem_append_right _ hmem)

/-- Every edit keeps a ranking, extended to the new node if there is one. -/
theorem Ranked.edit (h : s.Ranked rank) (hc : s.Closed) (hb : s.Bounded) (he : Edit keep s t) :
    ∃ rank', t.Ranked rank' := by
  cases he with
  | rewrite live get hr =>
      exact ⟨rank, h.fill get hr.name fun unnamed => h.rewrite hc live get unnamed hr⟩
  | @redirect id only node child isUnion children live get kind single any ne member named =>
      have honly : s.live only :=
        hc.members (fun d hd => hc.child_of_get live get (by rwa [kind, Kind.children_combination]))
          (single ▸ List.mem_singleton_self only)
      refine ⟨rank, h.ranking, fun a b hl => ?_, h.rest⟩
      rcases s.leads_redirect id only hl with ⟨-, rfl⟩ | ⟨-, hl⟩
      · rw [h.ranking.named _ child honly member named]
        exact Nat.zero_le _
      · exact h.lead a b hl
  | @branch u node branches live get kind unnamed undef =>
      -- live nodes have slots, so no rank that counts changes
      have hne : ∀ i, s.live i → i ≠ s.work.graph.size := fun i hi => Nat.ne_of_lt (hb i hi)
      let rank' (i : NodeId) : Nat := if i = s.work.graph.size then rank u else rank i
      have hold : ∀ i, i ≠ s.work.graph.size → rank' i = rank i := fun i hi => if_neg hi
      have hnew : rank' s.work.graph.size = rank u := if_pos rfl
      refine ⟨rank', ⟨?_, ?_⟩, fun a b hl => ?_, fun v n hn => ?_⟩
      · rintro a b ha ⟨found, hfound, hunnamed, hmem⟩
        by_cases hsize : a = s.work.graph.size
        · subst hsize
          rw [graph_branch, TypeGraph.get?_add_self] at hfound
          obtain rfl := Option.some.inj hfound
          have hbr : b ∈ node.kind.children := by rw [kind]; exact (List.mem_filter.1 hmem).1
          rw [hnew, hold b (hne b (hc.child_of_get live get hbr))]
          exact h.child_lt live get unnamed hbr
        · rw [graph_branch, TypeGraph.get?_add_of_ne _ hsize] at hfound
          have ha := ha.resolve_right hsize
          rw [hold a hsize, hold b (hne b (hc.child_of_get ha hfound hmem))]
          exact h.child_lt ha hfound hunnamed hmem
      · intro i found hi hfound hnamed
        by_cases hsize : i = s.work.graph.size
        · subst hsize
          rw [graph_branch, TypeGraph.get?_add_self] at hfound
          obtain rfl := Option.some.inj hfound
          simp at hnamed
        · rw [graph_branch, TypeGraph.get?_add_of_ne _ hsize] at hfound
          rw [hold i hsize]
          exact h.ranking.named i found (hi.resolve_right hsize) hfound hnamed
      · have hl : s.work.Leads a b := hl
        have hlive := hc.lead a b hl
        rw [hold a (hne a hlive.1), hold b (hne b hlive.2)]
        exact h.lead a b hl
      · rcases List.mem_cons.1 hn with hn | hn
        · obtain ⟨rfl, rfl⟩ := Prod.mk.inj hn
          rw [hnew, hold v (hne v live)]
        · have hlive := hc.rest v n hn
          rw [hold v (hne v hlive.1), hold n (hne n hlive.2)]
          exact h.rest v n hn
  | @restate u n mem =>
      refine ⟨rank, h.ranking, h.lead, fun v m hm => ?_⟩
      rcases List.mem_cons.1 hm with hm | hm
      · obtain ⟨rfl, rfl⟩ := Prod.mk.inj hm
        exact Nat.le_trans (h.resolve_le n) (h.rest _ _ mem)
      · exact h.rest v m hm

theorem Ranked.edits (h : s.Ranked rank) (hc : s.Closed) (hb : s.Bounded) (he : Edits keep s t) :
    ∃ rank', t.Ranked rank' := by
  induction he with
  | refl => exact ⟨rank, h⟩
  | tail hst he ih =>
      obtain ⟨rank', hr⟩ := ih
      exact hr.edit (hc.edits hst) (hb.edits hst) he

end Stage

end Typewright
