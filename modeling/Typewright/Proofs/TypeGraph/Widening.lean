import Typewright.Proofs.TypeGraph.Equivalence
import Typewright.Proofs.TypeGraph.Member
import Typewright.Proofs.TypeGraph.Names

/-!
# Simplification loses no members

What an edit writes into a slot has the values that the node had, and a redirect leads to a node that
has them, in as many steps. An edit may add values, as `any` does in an intersection. So each value
of the root is one of the simplified root (`Member.simplify`), as long as no text stands for the
absent value, which is no JSON value.
-/

namespace Typewright

/-- A kind that is not the text `undefined`. -/
def Kind.Defined (kind : Kind) : Prop := kind ≠ .customType "undefined" ∧ kind ≠ .reference "undefined"

theorem Kind.defined_combination (isUnion : Bool) (children : List NodeId) :
    (combination isUnion children).Defined := by
  cases isUnion <;> exact ⟨Kind.noConfusion, Kind.noConfusion⟩

theorem Kind.Defined.mapChildren {kind : Kind} (h : kind.Defined) (f : NodeId → NodeId) :
    (kind.mapChildren f).Defined := by
  cases kind <;> first | exact h | exact ⟨Kind.noConfusion, Kind.noConfusion⟩

theorem Kind.admits_singleton {same : Json → Json → Bool} {F : NodeId → Json → Prop} {isUnion : Bool}
    {c : NodeId} {v : Json} : (combination isUnion [c]).Admits same F v ↔ F c v := by
  cases isUnion <;> simp [combination, Admits]

/-- No node stands for the absent value. -/
def TypeGraph.Definite (g : TypeGraph) (live : NodeId → Prop) : Prop :=
  ∀ id node, live id → g.get? id = some node → node.kind.Defined

theorem Reduction.isUndefined_of_defined {w : Reduction} {id : NodeId}
    (h : ∀ node, w.graph.get? id = some node → node.kind.Defined) : w.isUndefined id = false := by
  unfold isUndefined
  cases hn : w.graph.get? id with
  | none => rfl
  | some node =>
      obtain ⟨htext, href⟩ := h node hn
      cases hkind : node.kind with
      | customType text =>
          simp only [hkind]
          simpa using fun heq => htext (by rw [hkind, heq])
      | reference text =>
          simp only [hkind]
          simpa using fun heq => href (by rw [hkind, heq])
      | _ => simp [hkind]

/-- A member stays when the members are flattened, or its own members come in its place. -/
theorem Reduction.mem_flatten_or_dissolves (w : Reduction) (id : NodeId) (isUnion : Bool)
    {children : List NodeId} {c : NodeId} (hc : c ∈ children) :
    c ∈ w.flatten id isUnion children ∨ ∃ node, w.graph.get? c = some node ∧
      dissolves isUnion node = true ∧
      ∀ m ∈ node.kind.children.map w.resolve, m ∈ w.flatten id isUnion children := by
  unfold flatten
  cases hn : w.graph.get? c with
  | none => exact .inl (List.mem_flatMap.2 ⟨c, hc, by simp [hn]⟩)
  | some node =>
      by_cases hd : c ≠ id ∧ dissolves isUnion node = true
      · refine .inr ⟨node, rfl, hd.2, fun m hm => List.mem_flatMap.2 ⟨c, hc, ?_⟩⟩
        simpa [hn, hd] using hm
      · refine .inl (List.mem_flatMap.2 ⟨c, hc, ?_⟩)
        have hif : ¬ (c != id && dissolves isUnion node) = true := by simpa using hd
        simp only [hn, hif]
        exact List.mem_singleton_self c

/-- What stands for a node depends on the redirects alone. -/
theorem Reduction.resolve_congr {w w' : Reduction} (h : w'.redirects = w.redirects) :
    w'.resolve = w.resolve := by
  have hfrom : ∀ hops id, w'.resolveFrom hops id = w.resolveFrom hops id := by
    intro hops
    induction hops with
    | zero => exact fun _ => rfl
    | succ hops ih =>
        intro id
        simp only [resolveFrom, h, ih]
  funext id
  rw [resolve, resolve, h, hfrom]

namespace Stage

variable {same : Json → Json → Bool} {keep : Bool} {s t : Stage} {n : Nat} {id : NodeId} {v : Json}

/-! ## Values of nodes under work -/

/-- The values that `n` steps show to belong to a node of a graph under work. -/
def Shows (s : Stage) (same : Json → Json → Bool) (n : Nat) (id : NodeId) (v : Json) : Prop :=
  s.work.graph.Within same s.work.resolve n id v

theorem shows_succ : s.Shows same (n + 1) id v ↔
    ∃ node, s.work.graph.get? (s.work.resolve id) = some node ∧
      node.kind.Admits same (s.Shows same n) v :=
  .rfl

theorem shows_succ_of_get {node : Node} (hn : s.work.graph.get? (s.work.resolve id) = some node) :
    s.Shows same (n + 1) id v ↔ node.kind.Admits same (s.Shows same n) v := by
  rw [shows_succ]
  constructor
  · rintro ⟨node', hn', hv⟩
    exact Option.some.inj (hn.symm.trans hn') ▸ hv
  · exact fun hv => ⟨node, hn, hv⟩

theorem Shows.succ (h : s.Shows same n id v) : s.Shows same (n + 1) id v := TypeGraph.Within.succ h

theorem shows_congr {a b : NodeId} (h : s.work.resolve a = s.work.resolve b) :
    s.Shows same n a v ↔ s.Shows same n b v := by
  cases n with
  | zero => exact .rfl
  | succ n => rw [shows_succ, shows_succ, h]

theorem Oriented.resolve_resolve (h : s.Oriented) (id : NodeId) :
    s.work.resolve (s.work.resolve id) = s.work.resolve id :=
  (h.free_resolve id).resolve_eq

theorem shows_resolve (h : s.Oriented) :
    s.Shows same n (s.work.resolve id) v ↔ s.Shows same n id v :=
  shows_congr (h.resolve_resolve id)

/-- What the proofs about edits need of a graph under work. -/
structure Sound (s : Stage) : Prop where
  closed : s.Closed
  oriented : s.Oriented
  labelled : s.Labelled
  plain : s.work.graph.Plain s.live
  definite : s.work.graph.Definite s.live
  rests : s.rests = []

/-- Nodes with the same fingerprint have the same values. -/
theorem Sound.shows_of_fingerprint (h : s.Sound) {a b : NodeId} (ha : s.live a) (hb : s.live b)
    (heq : s.work.graph.fingerprint s.work.resolve a = s.work.graph.fingerprint s.work.resolve b)
    (hv : s.Shows same n a v) : s.Shows same n b v := by
  have hcongr : s.work.graph.Congruence s.work.resolve s.live fun a b =>
      ∀ n v, s.Shows same n a v ↔ s.Shows same n b v := by
    refine ⟨fun a b _ _ hab n v => shows_congr hab,
      fun a b node node' name _ _ hna hnb hname hname' n v => ?_,
      fun a b node node' _ _ hna hnb halike n v => ?_⟩
    · exact shows_congr (h.labelled.graph.distinct _ _ node node' name hna hnb hname hname')
    · cases n with
      | zero => exact .rfl
      | succ n =>
          rw [shows_succ_of_get hna, shows_succ_of_get hnb]
          exact ⟨halike.admits fun _ _ hab v => (hab n v).1,
            halike.flip.admits fun _ _ hab v => (hab n v).2⟩
  exact (hcongr.of_fingerprint h.plain (fun _ => h.closed.resolve)
    (fun _ _ hid hn _ hmem => h.closed.child_of_get hid hn hmem) ha hb heq n v).1 hv

/-! ## Members of a combination -/

/-- What a dissolved member has, its own members have. -/
theorem Oriented.admits_dissolved (h : s.Oriented) {c : NodeId} {node : Node} {isUnion : Bool}
    (hc : s.work.resolve c = c) (hn : s.work.graph.get? c = some node)
    (hd : Reduction.dissolves isUnion node = true) (hv : s.Shows same n c v) :
    (Kind.combination isUnion (node.kind.children.map s.work.resolve)).Admits same
      (s.Shows same n) v := by
  have hkind := (Reduction.dissolves_iff.1 hd).2.2
  cases n with
  | zero => exact hv.elim
  | succ n =>
      have hv := (shows_succ_of_get (hc.symm ▸ hn)).1 hv
      have hmap : Kind.combination isUnion (node.kind.children.map s.work.resolve) =
          node.kind.mapChildren s.work.resolve := by
        conv_rhs => rw [hkind]
        cases isUnion <;> rfl
      rw [hmap, Kind.admits_mapChildren]
      exact hv.mono fun d _ v hd => (shows_resolve h).2 hd.succ

theorem resolve_of_mem_flatten (h : s.Oriented) {m : NodeId} {isUnion : Bool}
    {children : List NodeId}
    (hm : m ∈ s.work.flatten id isUnion (children.map s.work.resolve)) : s.work.resolve m = m :=
  s.work.of_mem_flatten (P := fun m => s.work.resolve m = m) (fun c _ => h.resolve_resolve c)
    (fun _ _ _ _ _ d _ => h.resolve_resolve d) hm

/-- A combination of what is left of the members has what the combination of all has. -/
theorem Sound.admits_members (h : s.Sound) (id : NodeId) {isUnion : Bool} {children : List NodeId}
    (hlive : ∀ c ∈ children, s.live c)
    (hv : (Kind.combination isUnion children).Admits same (s.Shows same n) v) :
    (Kind.combination isUnion (s.work.members id isUnion children)).Admits same
      (s.Shows same n) v := by
  have hres := h.oriented.resolve_resolve
  cases isUnion with
  | true =>
      obtain ⟨c, hc, hv⟩ := hv
      have hv := (shows_resolve h.oriented).2 hv
      obtain ⟨m, hm, hv⟩ : ∃ m ∈ s.work.flatten id true (children.map s.work.resolve),
          s.Shows same n m v := by
        rcases s.work.mem_flatten_or_dissolves id true (List.mem_map_of_mem hc) with
          hmem | ⟨node, hn, hdis, hmem⟩
        · exact ⟨_, hmem, hv⟩
        · obtain ⟨m, hm, hv⟩ := h.oriented.admits_dissolved (hres c) hn hdis hv
          exact ⟨m, hmem m hm, hv⟩
      rcases s.work.exists_mem_dropDuplicates [] hm with hnil | ⟨m', hm', heq⟩
      · cases hnil
      · exact ⟨m', hm', h.shows_of_fingerprint (h.closed.flatten hlive hm)
          (h.closed.members hlive hm') heq.symm hv⟩
  | false =>
      intro m hm
      rcases s.work.mem_flatten (s.work.mem_dropDuplicates hm) with
        hm | ⟨c, hc, node, hn, -, hdis, d, hd, rfl⟩
      · obtain ⟨c, hc, rfl⟩ := List.mem_map.1 hm
        exact (shows_resolve h.oriented).2 (hv c hc)
      · obtain ⟨b, hb, rfl⟩ := List.mem_map.1 hc
        have hall := h.oriented.admits_dissolved (hres b) hn hdis
          ((shows_resolve h.oriented).2 (hv b hb))
        exact hall _ (List.mem_map_of_mem hd)

/-! ## Edits keep values -/

/-- The members that a simplification keeps say the same. -/
theorem admits_kept {F : NodeId → Json → Prop} {members : List InterfaceMember} {fields : Members}
    (h : InterfaceMember.Admits F members fields) :
    InterfaceMember.Admits F (Reduction.kept keep members) fields := by
  have hmem : ∀ m ∈ members, m.unreachable = false → m ∈ Reduction.kept keep members := by
    intro m hm hu
    unfold Reduction.kept
    split
    · exact hm
    · exact List.mem_filter.2 ⟨hm, by simp [hu]⟩
  have hforeign : ∀ {key}, InterfaceMember.Foreign (Reduction.kept keep members) key →
      InterfaceMember.Foreign members key :=
    fun hkey m hm hfield => hkey m (hmem m hm hfield.2.2) hfield
  refine ⟨fun m hm => h.required m (kept_subset hm), fun m hm => h.field m (kept_subset hm),
    fun f hf hfor => ?_, fun f hf hfor m hm => h.index f hf (hforeign hfor) m (kept_subset hm)⟩
  obtain ⟨m, hm, hindex⟩ := h.indexed f hf (hforeign hfor)
  exact ⟨m, hmem m hm hindex.2.2, hindex⟩

/-- Without rests no member is relaxed. -/
theorem eq_of_relaxed (h : s.rests = []) {members members' : List InterfaceMember}
    (hr : List.Forall₂ s.Relaxed members members') : members = members' := by
  rw [← List.forall₂_eq_eq_eq]
  refine hr.imp fun m m' hm => ?_
  cases hm with
  | same => rfl
  | rest hrest => rw [h] at hrest; cases hrest

/-- What is written into the slot of a node has the values that the node had. -/
theorem Sound.rewrite (h : s.Sound) {node node' : Node} (live : s.live id)
    (get : s.work.graph.get? id = some node) (hr : Rewrite keep s id node node')
    (hv : node.kind.Admits same (s.Shows same n) v) :
    node'.kind.Admits same (s.Shows same n) v := by
  have hmembers : ∀ {isUnion children}, node.kind = .combination isUnion children →
      (Kind.combination isUnion (s.work.members id isUnion children)).Admits same
        (s.Shows same n) v := by
    intro isUnion children kind
    refine h.admits_members id (fun c hc => h.closed.child_of_get live get ?_) (kind ▸ hv)
    rwa [kind, Kind.children_combination]
  cases hr with
  | resolve => exact (Kind.admits_mapChildren _ _).2 (hv.mono fun c _ v => (shows_resolve h.oriented).2)
  | combine kind any => exact hmembers kind
  | absorb => trivial
  | @copy only child isUnion children kind single any ne member =>
      have honly := single ▸ hmembers kind
      rw [Kind.admits_singleton] at honly
      have hmem : only ∈ s.work.members id isUnion children := single ▸ List.mem_singleton_self only
      have hres := resolve_of_mem_flatten h.oriented (s.work.mem_dropDuplicates hmem)
      cases n with
      | zero => exact honly.elim
      | succ n =>
          have hget : s.work.graph.get? (s.work.resolve only) = some child := by rw [hres, member]
          exact ((shows_succ_of_get hget).1 honly).mono fun _ _ _ => Shows.succ
  | interface kind relaxed =>
      rw [kind] at hv
      obtain ⟨⟨fields, rfl, hms⟩, hs⟩ := hv
      exact ⟨⟨fields, rfl, eq_of_relaxed h.rests relaxed ▸ admits_kept hms⟩, hs⟩

/-- A slot may be filled with what has the values of the node in it. -/
theorem Closed.shows_fill (h : s.Closed) {i : NodeId} {node node' : Node}
    (get : s.work.graph.get? i = some node)
    (hall : ∀ n v, node.kind.Admits same (s.Shows same n) v →
      node'.kind.Admits same (s.Shows same n) v)
    (hchild : ∀ c ∈ node'.kind.children, s.live c)
    (live : s.live id) (hv : s.Shows same n id v) : (s.fill i node').Shows same n id v := by
  have hres : (s.fill i node').work.resolve = s.work.resolve := Reduction.resolve_congr rfl
  induction n generalizing id v with
  | zero => exact hv
  | succ n ih =>
      obtain ⟨found, hfound, hv⟩ := hv
      by_cases hi : s.work.resolve id = i
      · obtain rfl := Option.some.inj (get.symm.trans (hi ▸ hfound))
        have hget : (s.fill i node').work.graph.get? ((s.fill i node').work.resolve id) =
            some node' := by
          rw [hres, hi, graph_fill, TypeGraph.get?_fill_self _ (s.work.graph.lt_size_of_get? get)]
        exact (shows_succ_of_get hget).2 ((hall n v hv).mono fun c hc v => ih (hchild c hc))
      · have hget : (s.fill i node').work.graph.get? ((s.fill i node').work.resolve id) =
            some found := by
          rw [hres, graph_fill, TypeGraph.get?_fill_of_ne _ hi, hfound]
        exact (shows_succ_of_get hget).2
          (hv.mono fun c hc v => ih (h.child_of_get (h.resolve live) hfound hc))

/-- One redirect leads to what stands for a node. -/
theorem Oriented.resolve_eq (h : s.Oriented) (i : NodeId) :
    s.work.resolve i = (s.work.redirects.lookup i).getD i := by
  rw [Reduction.resolve, Reduction.resolveFrom]
  split
  · rename_i hnone
    rw [hnone, Option.getD_none]
  · rename_i next hl
    rw [hl, Option.getD_some]
    split
    · rename_i heq
      exact heq.symm
    · obtain ⟨node, hn, hname⟩ := h.target i next (mem_of_lookup hl)
      have hpath := s.work.leads_resolveFrom s.work.redirects.length next
      rcases (Relation.ReflTransGen.cases_head_iff).1 hpath with heq | ⟨b, hl, -⟩
      · exact heq.symm
      · exact (h.free hn hname b hl).elim

/-- A new redirect changes what stands for its source alone. -/
theorem Oriented.resolve_redirect (h : s.Oriented) {only : NodeId}
    (h' : (s.redirect id only).Oriented) (free : s.work.Free id) (i : NodeId) :
    (s.redirect id only).work.resolve i = s.work.resolve i ∨
      (s.work.resolve i = id ∧ (s.redirect id only).work.resolve i = only) := by
  have hlookup : (s.redirect id only).work.redirects =
      (id, only) :: s.work.redirects.filter (·.1 != id) := rfl
  have hsame : s.work.redirects.filter (·.1 != id) = s.work.redirects :=
    List.filter_eq_self.2 fun e he => bne_iff_ne.2 fun heq => free e.2 (heq ▸ he)
  rw [h'.resolve_eq, hlookup, hsame, h.resolve_eq, List.lookup_cons]
  by_cases hi : i = id
  · have hnone : s.work.redirects.lookup i = none := by
      refine List.lookup_eq_none_iff.2 fun e he => ?_
      exact bne_iff_ne.2 fun heq => free e.2 (hi ▸ heq ▸ he)
    rw [hnone, hi, beq_self_eq_true]
    exact .inr ⟨rfl, rfl⟩
  · rw [beq_false_of_ne hi]
    exact .inl rfl

/-- A single member has what the combination has, and may stand for it. -/
theorem Sound.shows_redirect (h : s.Sound) {i only : NodeId} {node : Node} {isUnion : Bool}
    {children : List NodeId} (h' : (s.redirect i only).Oriented) (live : s.live i)
    (get : s.work.graph.get? i = some node) (kind : node.kind = .combination isUnion children)
    (single : s.work.members i isUnion children = [only]) (free : s.work.Free i)
    (hid : s.live id) (hv : s.Shows same n id v) : (s.redirect i only).Shows same n id v := by
  have hlive : ∀ c ∈ children, s.live c := fun c hc =>
    h.closed.child_of_get live get (by rwa [kind, Kind.children_combination])
  have honly : s.live only := h.closed.members hlive (single ▸ List.mem_singleton_self only)
  induction n generalizing id v with
  | zero => exact hv
  | succ n ih =>
      obtain ⟨found, hfound, hv⟩ := hv
      have hbelow : ∀ c ∈ found.kind.children, ∀ v, s.Shows same n c v →
          (s.redirect i only).Shows same n c v := fun c hc v =>
        ih (h.closed.child_of_get (h.closed.resolve hid) hfound hc)
      rcases h.oriented.resolve_redirect h' free id with heq | ⟨hi, heq⟩
      · refine (shows_succ_of_get ?_).2 (hv.mono hbelow)
        rw [heq, graph_redirect, hfound]
      · -- the node that is redirected has the values of its member
        obtain rfl := Option.some.inj (get.symm.trans (hi ▸ hfound))
        have hmembers := h.admits_members i hlive (kind ▸ hv)
        rw [single, Kind.admits_singleton] at hmembers
        have hstep := (ih honly hmembers).succ
        refine (shows_congr ?_).1 hstep
        rw [heq]
        have hres := h'.resolve_resolve id
        rwa [heq] at hres

theorem defined_rewrite (h : s.work.graph.Definite s.live) (hc : s.Closed) {node node' : Node}
    (live : s.live id) (get : s.work.graph.get? id = some node)
    (hr : Rewrite keep s id node node') : node'.kind.Defined := by
  cases hr with
  | resolve => exact (h id node live get).mapChildren _
  | combine => exact Kind.defined_combination ..
  | absorb => exact ⟨Kind.noConfusion, Kind.noConfusion⟩
  | @copy only child isUnion children kind single any ne member =>
      have honly : s.live only :=
        hc.members (fun d hd => hc.child_of_get live get (by rwa [kind, Kind.children_combination]))
          (single ▸ List.mem_singleton_self only)
      exact h only child honly member
  | interface => exact ⟨Kind.noConfusion, Kind.noConfusion⟩

/-- Without the text `undefined` no union is cut. -/
theorem length_defined (h : s.work.graph.Definite s.live) {branches : List NodeId}
    (hlive : ∀ c ∈ branches, s.live c) :
    (s.work.defined branches).length = branches.length := by
  refine congrArg List.length (List.filter_eq_self.2 fun c hc => ?_)
  rw [Reduction.isUndefined_of_defined fun node hn => h c node (hlive c hc) hn]
  rfl

/-- An edit keeps the values of live nodes. -/
theorem Sound.edit (h : s.Sound) (he : Edit keep s t) : t.Sound ∧ t.live = s.live ∧
    ∀ n id v, s.live id → s.Shows same n id v → t.Shows same n id v := by
  have horiented := h.oriented.edit he
  have hlabelled := h.labelled.edit he
  have hclosed := h.closed.edit he
  have hplain := plain_edit h.plain h.closed he
  cases he with
  | @rewrite i node node' live get hr =>
      refine ⟨⟨hclosed, horiented, hlabelled, hplain, fun j found hj hn => ?_, h.rests⟩, rfl,
        fun n id v hid => h.closed.shows_fill get (fun n v => h.rewrite live get hr)
          (h.closed.rewrite live get hr) hid⟩
      rw [graph_fill, TypeGraph.get?_fill _ (s.work.graph.lt_size_of_get? get)] at hn
      split at hn
      · exact Option.some.inj hn ▸ defined_rewrite h.definite h.closed live get hr
      · exact h.definite j found hj hn
  | redirect live get kind single any ne member named unnamed bare free =>
      exact ⟨⟨hclosed, horiented, hlabelled, hplain, h.definite, h.rests⟩, rfl,
        fun n id v hid => h.shows_redirect horiented live get kind single free hid⟩
  | branch live get kind unnamed undef =>
      exact absurd (length_defined h.definite fun c hc =>
        h.closed.child_of_get live get (kind ▸ hc)) undef
  | restate mem => rw [h.rests] at mem; cases mem

theorem Sound.edits (h : s.Sound) (he : Edits keep s t) : t.Sound ∧ t.live = s.live ∧
    ∀ n id v, s.live id → s.Shows same n id v → t.Shows same n id v := by
  induction he with
  | refl => exact ⟨h, rfl, fun _ _ _ _ hv => hv⟩
  | tail _ he ih =>
      obtain ⟨hsound, hlive, hshows⟩ := ih
      obtain ⟨hsound', hlive', hshows'⟩ := hsound.edit he
      exact ⟨hsound', hlive'.trans hlive, fun n id v hid hv =>
        hshows' n id v (hlive.symm ▸ hid) (hshows n id v hid hv)⟩

/-! ## The result -/

/-- A node of the result has the values of the node that it was. -/
theorem within_compact (hid : s.work.resolve id ∈ s.work.order) (hv : s.Shows same n id v) :
    s.work.compact.Within same (fun i => i) n (s.work.number id) v := by
  induction n generalizing id v with
  | zero => exact hv
  | succ n ih =>
      obtain ⟨node, hn, hv⟩ := hv
      refine ⟨s.work.renumber node, ?_, (Kind.admits_mapChildren _ _).2 (hv.mono fun c hc v => ?_)⟩
      · rw [s.work.get?_compact_number hid, hn]
        rfl
      · exact ih (s.work.child_mem_order hid hn hc)

end Stage

/-- Simplification keeps the values of the root. -/
theorem TypeGraph.Member.simplify {same : Json → Json → Bool} {g : TypeGraph} {v : Json}
    (hi : g.Inside) (hl : g.Labelled) (hp : g.Plain g.Reaches) (hd : g.Definite g.Reaches)
    (keep : Bool) (h : g.Member same g.root v) :
    (g.simplify keep).Member same (g.simplify keep).root v := by
  obtain ⟨t, he, -, heq⟩ := TypeGraph.simplify_eq keep hi
  have hstart : (Stage.start g).Sound := by
    refine ⟨Stage.closed_start g, Stage.oriented_start g, ⟨hl, fun id node members hn hkind m hm => ?_⟩,
      hp, hd, rfl⟩
    exact ⟨hl.enums id node members hn hkind m hm, fun _ hlead => absurd hlead List.not_mem_nil⟩
  obtain ⟨n, hv⟩ := h
  obtain ⟨-, -, hshows⟩ := hstart.edits he
  have hroot : t.work.graph.root = g.root := by
    clear heq hshows
    induction he with
    | refl => rfl
    | tail _ hedit ih => rw [hedit.root, ih]
  refine ⟨n, ?_⟩
  rw [heq, t.work.root_compact]
  refine Stage.within_compact t.work.root_mem_order ?_
  rw [hroot]
  exact hshows n g.root v .refl hv

end Typewright
