import Typewright.Proofs.TypeGraph.Grounded

/-!
# What is done

A node is done if all that it leads to is in normal form, without cycles and redirects. What is done
stays so in a step that leaves its slots and redirects alone (`Retains.done`), since fingerprints
are those of trees. A step at a union or an intersection with done members makes it done as well, or
redirects it to what is (`handled_reduceCombination`): a member that dissolves leaves members behind
that are in normal form themselves (`Tidy.flat_members`).
-/

namespace Typewright

/-- The members of a union, or else an intersection, are in normal form. -/
structure TypeGraph.NormalMembers (g : TypeGraph) (resolve : NodeId → NodeId) (isUnion : Bool)
    (members : List NodeId) : Prop where
  /-- No member is `any`. -/
  any : ∀ m ∈ members, ∀ node, g.get? m = some node → node.kind ≠ .any
  /-- No member is of the same kind, without name and comment. -/
  flat : ∀ m ∈ members, ∀ node, g.get? m = some node → node.name = none → node.comment = none →
    ∀ cs, node.kind ≠ .combination isUnion cs
  /-- No two members have the same fingerprint. -/
  distinct : (members.map (g.fingerprint resolve)).Nodup
  /-- A single member is named. -/
  single : ∀ m, members = [m] → ∃ node, g.get? m = some node ∧ node.name.isSome

theorem Kind.combination_inj {isUnion isUnion' : Bool} {cs ds : List NodeId}
    (h : combination isUnion cs = combination isUnion' ds) : isUnion = isUnion' ∧ cs = ds := by
  cases isUnion <;> cases isUnion' <;> cases h <;> exact ⟨rfl, rfl⟩

/-! ## Normal members in another graph -/

/-- Members in normal form are so wherever they are, under other numbers too. -/
theorem TypeGraph.NormalMembers.map {g h : TypeGraph} {resolve resolve' f : NodeId → NodeId}
    {isUnion : Bool} {members : List NodeId} (hn : g.NormalMembers resolve isUnion members)
    (hget : ∀ m ∈ members, ∃ node, g.get? m = some node ∧
      h.get? (f m) = some { node with kind := node.kind.mapChildren f })
    (hprint : ∀ m ∈ members, h.fingerprint resolve' (f m) = g.fingerprint resolve m) :
    h.NormalMembers resolve' isUnion (members.map f) := by
  have hnode : ∀ m ∈ members, ∀ node', h.get? (f m) = some node' →
      ∃ node, g.get? m = some node ∧ node' = { node with kind := node.kind.mapChildren f } := by
    intro m hm node' hnode'
    obtain ⟨node, get, get'⟩ := hget m hm
    exact ⟨node, get, Option.some.inj (hnode'.symm.trans get')⟩
  refine ⟨fun m' hm' node' hnode' => ?_, fun m' hm' node' hnode' hname hcomment cs hkind => ?_, ?_,
    fun m' heq => ?_⟩
  · obtain ⟨m, hm, rfl⟩ := List.mem_map.1 hm'
    obtain ⟨node, get, rfl⟩ := hnode m hm node' hnode'
    have hany := hn.any m hm node get
    intro hkind
    cases hk : node.kind <;> rw [hk] at hkind hany <;> cases hkind
    exact hany rfl
  · obtain ⟨m, hm, rfl⟩ := List.mem_map.1 hm'
    obtain ⟨node, get, rfl⟩ := hnode m hm node' hnode'
    obtain ⟨ds, hds, -⟩ := Kind.of_mapChildren_combination hkind
    exact hn.flat m hm node get hname hcomment ds hds
  · have hprints : (members.map f).map (h.fingerprint resolve') =
        members.map (g.fingerprint resolve) := by
      rw [List.map_map]
      exact List.map_congr_left hprint
    rw [hprints]
    exact hn.distinct
  · obtain ⟨m, rfl, rfl⟩ := List.map_eq_singleton_iff.1 heq
    obtain ⟨node, get, hname⟩ := hn.single m rfl
    obtain ⟨node', get', hget'⟩ := hget m List.mem_cons_self
    obtain rfl := Option.some.inj (get.symm.trans get')
    exact ⟨_, hget', hname⟩

namespace Reduction

variable {w v u : Reduction} {P region : NodeId → Prop}
  {id a : NodeId} {node : Node} {isUnion : Bool} {children : List NodeId}

theorem Copies.normalMembers {P : NodeId → Node → Prop} {f : NodeId → NodeId} (h : w.Copies v P f)
    {members : List NodeId} (hms : ∀ m ∈ members, w.Grounded P m)
    (hn : w.graph.NormalMembers w.resolve isUnion members) :
    v.graph.NormalMembers v.resolve isUnion (members.map f) := by
  refine hn.map (fun m hm => ?_) fun m hm => h.fingerprint_eq (hms m hm)
  obtain ⟨node, get, -⟩ := (hms m hm).exists_get?
  exact ⟨node, get, h.get m node (hms m hm) get⟩

/-! ## Redirects -/

theorem free_iff : w.Free id ↔ w.redirects.lookup id = none := by
  refine ⟨fun h => ?_, fun h b hl => lookup_ne_none hl h⟩
  cases hl : w.redirects.lookup id with
  | none => rfl
  | some b => exact (h b (mem_of_lookup hl)).elim

theorem Free.resolveFrom_eq (h : w.Free id) (hops : Nat) : w.resolveFrom hops id = id := by
  cases hops with
  | zero => rfl
  | succ hops => rw [resolveFrom, free_iff.1 h]

/-- A redirect to a node that stands for itself. -/
theorem resolve_of_lookup {b : NodeId} (hl : w.redirects.lookup a = some b) (hb : w.Free b) :
    w.resolve a = b := by
  rw [resolve, resolveFrom, hl]
  dsimp only
  split
  · rename_i heq
    exact heq.symm
  · exact hb.resolveFrom_eq _

theorem lookup_redirect_of_ne {target : NodeId} (h : a ≠ id) :
    (w.redirect id target).redirects.lookup a = w.redirects.lookup a := by
  have hfilter : ∀ l : List (NodeId × NodeId), (l.filter (·.1 != id)).lookup a = l.lookup a := by
    intro l
    induction l with
    | nil => rfl
    | cons p rest ih =>
        rw [List.filter_cons, List.lookup_cons]
        by_cases hp : p.1 = id
        · have hap : (a == p.1) = false := by simpa [hp] using h
          rw [if_neg (by simpa using hp), ih, hap]
        · rw [if_pos (by simpa using hp), List.lookup_cons, ih]
  have hne : (a == id) = false := by simpa using h
  rw [redirect, List.lookup_cons, hne]
  exact hfilter _

/-! ## What is done -/

/-- A node that is a union or an intersection has members in normal form. -/
def NormalNode (w : Reduction) (node : Node) : Prop :=
  ∀ isUnion cs, node.kind = .combination isUnion cs →
    w.graph.NormalMembers w.resolve isUnion cs

/-- A node leads to nodes in normal form alone, all of them in the region. -/
abbrev Done (w : Reduction) (region : NodeId → Prop) (a : NodeId) : Prop :=
  w.Grounded (fun id node => region id ∧ w.NormalNode node) a

theorem Done.weaken {region' : NodeId → Prop} (h : w.Done region a)
    (hi : ∀ i, region i → i < w.graph.size → region' i) : w.Done region' a :=
  Grounded.of_forall h fun id _ get holds _ =>
    ⟨hi id holds.1 (w.graph.lt_size_of_get? get), holds.2⟩

theorem Done.mem (h : w.Done region a) : region a := by
  obtain ⟨_, -, holds, -⟩ := h.exists_get?
  exact holds.1

/-- What stays as it is: the root and, of the nodes that `P` names, the slots and the redirects. -/
structure Retains (P : NodeId → Prop) (w v : Reduction) : Prop where
  size : w.graph.size ≤ v.graph.size
  root : v.graph.root = w.graph.root
  get : ∀ i, P i → v.graph.get? i = w.graph.get? i
  lookup : ∀ i, P i → v.redirects.lookup i = w.redirects.lookup i

theorem Retains.trans {Q R : NodeId → Prop} (h : Retains P w v) (h' : Retains Q v u)
    (hP : ∀ i, R i → P i) (hQ : ∀ i, R i → Q i) : Retains R w u where
  size := Nat.le_trans h.size h'.size
  root := h'.root.trans h.root
  get i hi := (h'.get i (hQ i hi)).trans (h.get i (hP i hi))
  lookup i hi := (h'.lookup i (hQ i hi)).trans (h.lookup i (hP i hi))

theorem Retains.mono {R : NodeId → Prop} (h : Retains P w v) (hP : ∀ i, R i → P i) :
    Retains R w v where
  size := h.size
  root := h.root
  get i hi := h.get i (hP i hi)
  lookup i hi := h.lookup i (hP i hi)

theorem Retains.free (h : Retains P w v) {i : NodeId} (hi : P i) : v.Free i ↔ w.Free i := by
  rw [free_iff, free_iff, h.lookup i hi]

/-- No redirect starts beyond the slots. -/
def Contained (w : Reduction) : Prop := ∀ i, w.graph.size ≤ i → w.Free i

theorem Retains.contained (h : Retains P w v) (hw : w.Contained)
    (hP : ∀ i, v.graph.size ≤ i → P i) : v.Contained := fun i hi =>
  (h.free (hP i hi)).2 (hw i (Nat.le_trans h.size hi))

theorem Retains.copies (h : Retains P w v) (hP : ∀ i, region i → i < w.graph.size → P i) :
    w.Copies v (fun id node => region id ∧ w.NormalNode node) fun i => i := by
  refine copies_of_same (fun a ha => ?_) fun a ha => ?_
  · exact h.get a (hP a (Done.mem ha) ha.lt_size)
  · refine (h.free (hP a (Done.mem ha) ha.lt_size)).2 ?_
    cases ha with
    | node _ free => exact free

/-- A node with done parts is in normal form where these stay as they are. -/
theorem Retains.normalNode (h : Retains P w v) (hP : ∀ i, region i → i < w.graph.size → P i)
    (hc : ∀ c ∈ node.kind.children, w.Done region c) (hn : w.NormalNode node) :
    v.NormalNode node := by
  intro isUnion cs hkind
  have hgrounded : ∀ c ∈ cs, w.Done region c := fun c hmem =>
    hc c (by rwa [hkind, Kind.children_combination])
  have hmembers := (h.copies hP).normalMembers hgrounded (hn isUnion cs hkind)
  rwa [List.map_id'] at hmembers

theorem Retains.done (h : Retains P w v) (hP : ∀ i, region i → i < w.graph.size → P i)
    (ha : w.Done region a) : v.Done region a := by
  refine (h.copies hP).grounded ha fun id node get holds children => ⟨holds.1, ?_⟩
  rw [Kind.mapChildren_eq_self fun _ _ => rfl]
  exact h.normalNode hP children holds.2

/-- A done node stands in the place of another one, or for itself. -/
def Handled (w : Reduction) (region : NodeId → Prop) (a : NodeId) : Prop :=
  w.Done region a ∨ ∃ b, w.redirects.lookup a = some b ∧ w.Done region b

theorem Done.free (h : w.Done region a) : w.Free a := by
  cases h with
  | node _ free => exact free

theorem Handled.resolve (h : w.Handled region a) : w.Done region (w.resolve a) := by
  rcases h with h | ⟨b, hl, hb⟩
  · rwa [Grounded.resolve_eq h]
  · rwa [resolve_of_lookup hl (Done.free hb)]

theorem Retains.handled (h : Retains P w v) (hP : ∀ i, region i → i < w.graph.size → P i)
    (ha : P a) (hh : w.Handled region a) : v.Handled region a := by
  refine hh.imp (h.done hP) fun ⟨b, hl, hb⟩ => ⟨b, ?_, h.done hP hb⟩
  rw [h.lookup a ha, hl]

theorem Handled.weaken {region' : NodeId → Prop} (h : w.Handled region a)
    (hi : ∀ i, region i → i < w.graph.size → region' i) : w.Handled region' a :=
  h.imp (fun ha => Done.weaken ha hi) fun ⟨b, hl, hb⟩ => ⟨b, hl, Done.weaken hb hi⟩

/-! ## Unions and intersections -/

theorem nodup_dropDuplicates (w : Reduction) (seen : List String) (ids : List NodeId) :
    ((w.dropDuplicates seen ids).map (w.graph.fingerprint w.resolve)).Nodup ∧
      ∀ m ∈ w.dropDuplicates seen ids, w.graph.fingerprint w.resolve m ∉ seen := by
  induction ids generalizing seen with
  | nil => exact ⟨List.nodup_nil, nofun⟩
  | cons i rest ih =>
      rw [dropDuplicates]
      split
      · exact ih seen
      · rename_i hnew
        obtain ⟨hnodup, hall⟩ := ih (w.graph.fingerprint w.resolve i :: seen)
        refine ⟨List.nodup_cons.2 ⟨fun hmem => ?_, hnodup⟩, List.forall_mem_cons.2 ⟨hnew,
          fun m hm hmem => hall m hm (List.mem_cons_of_mem _ hmem)⟩⟩
        obtain ⟨m, hm, heq⟩ := List.mem_map.1 hmem
        exact hall m hm (heq ▸ List.mem_cons_self)

/-- A set of built nodes without redirects that lead to one another alone, with members in normal
form. -/
structure Tidy (w : Reduction) (S : NodeId → Prop) : Prop where
  free : ∀ a, S a → w.Free a
  node : ∀ a, S a → ∃ node, w.graph.get? a = some node ∧ w.NormalNode node ∧
    ∀ c ∈ node.kind.children, S c

section Tidy

variable {S : NodeId → Prop}

theorem Tidy.of_get? (h : w.Tidy S) (ha : S a) (get : w.graph.get? a = some node) :
    w.NormalNode node ∧ ∀ c ∈ node.kind.children, S c := by
  obtain ⟨node', get', hnode⟩ := h.node a ha
  obtain rfl := Option.some.inj (get.symm.trans get')
  exact hnode

/-- What is left of the members is in the set. -/
theorem Tidy.members (h : w.Tidy S) (id : NodeId) (isUnion : Bool)
    (hc : ∀ c ∈ children, S (w.resolve c)) : ∀ m ∈ w.members id isUnion children, S m := by
  refine fun m hm => w.of_mem_flatten hc (fun c node hmem get _ d hd => ?_)
    (w.mem_dropDuplicates hm)
  have hpart := (h.of_get? hmem get).2 d hd
  rwa [(h.free d hpart).resolve_eq]

/-- No member that is left dissolves: one of a dissolved member is in normal form. -/
theorem Tidy.flat_members (h : w.Tidy S) (isUnion : Bool) (hid : ¬ S id)
    (hc : ∀ c ∈ children, S (w.resolve c)) :
    ∀ m ∈ w.members id isUnion children, ∀ node, w.graph.get? m = some node → node.name = none →
      node.comment = none → ∀ cs, node.kind ≠ .combination isUnion cs := by
  intro m hm node get hname hcomment cs hkind
  have hdissolves : dissolves isUnion node = true :=
    dissolves_iff.2 ⟨hname, hcomment, by rw [hkind, Kind.children_combination]⟩
  obtain ⟨c, hmem, hm⟩ := List.mem_flatMap.1 (w.mem_dropDuplicates hm)
  obtain ⟨d, hd, rfl⟩ := List.mem_map.1 hmem
  obtain ⟨child, hchild, hnormal, hparts⟩ := h.node _ (hc d hd)
  have hne : w.resolve d ≠ id := fun heq => hid (heq ▸ hc d hd)
  rw [hchild] at hm
  dsimp only at hm
  split at hm
  · -- a member of a member that dissolves
    rename_i hinner
    obtain ⟨e, he, rfl⟩ := List.mem_map.1 hm
    obtain ⟨-, -, hcombination⟩ := dissolves_iff.1 (Bool.and_eq_true_iff.1 hinner).2
    rw [(h.free e (hparts e he)).resolve_eq] at get
    exact (hnormal isUnion _ hcombination).flat e he node get hname hcomment cs hkind
  · rename_i hinner
    obtain rfl := List.mem_singleton.1 hm
    obtain rfl := Option.some.inj (hchild.symm.trans get)
    exact hinner (Bool.and_eq_true_iff.2 ⟨bne_iff_ne.2 hne, hdissolves⟩)

/-- What a step keeps as the members of a combination is in normal form. -/
theorem Tidy.normalMembers (h : w.Tidy S) (hid : ¬ S id) (hc : ∀ c ∈ children, S (w.resolve c))
    (any : ∀ m ∈ w.members id isUnion children, w.isAny m = false)
    (single : ∀ only child, w.members id isUnion children = [only] → only ≠ id →
      w.graph.get? only = some child → child.name.isSome ∧ (node.name.isSome ∨ node.comment.isSome)) :
    w.graph.NormalMembers w.resolve isUnion (w.members id isUnion children) where
  any m hm node get hkind := by
    have hany := any m hm
    rw [isAny, get] at hany
    exact absurd hkind (by simpa using hany)
  flat := h.flat_members isUnion hid hc
  distinct := (w.nodup_dropDuplicates [] _).1
  single only hsingle := by
    have hmem : S only := h.members id isUnion hc only (hsingle ▸ List.mem_singleton_self only)
    obtain ⟨child, get, -⟩ := h.node only hmem
    exact ⟨child, get, (single only child hsingle (fun heq => hid (heq ▸ hmem)) get).1⟩

end Tidy

theorem tidy_done (w : Reduction) (region : NodeId → Prop) : w.Tidy (w.Done region) where
  free _ h := Done.free h
  node _ h := by
    obtain ⟨node, get, ⟨-, hnormal⟩, hparts⟩ := h.exists_get?
    exact ⟨node, get, hnormal, hparts⟩

theorem retains_fill (w : Reduction) (id : NodeId) (node : Node) :
    Retains (· ≠ id) w (w.fill id node) where
  size := Nat.le_of_eq (w.graph.size_fill id node).symm
  root := rfl
  get _ hi := w.graph.get?_fill_of_ne hi
  lookup _ _ := rfl

theorem retains_redirect (w : Reduction) (id target : NodeId) :
    Retains (· ≠ id) w (w.redirect id target) where
  size := Nat.le_refl _
  root := rfl
  get _ _ := rfl
  lookup _ hi := lookup_redirect_of_ne hi

theorem Combined.retains {members : List NodeId} (h : Combined w id isUnion node members v) :
    Retains (· ≠ id) w v := by
  cases h with
  | redirect => exact w.retains_redirect id _
  | _ => exact w.retains_fill id _

/-- A slot is filled with a node in normal form whose parts are done. -/
theorem handled_fill (hlt : id < w.graph.size) (free : w.Free id) (hid : ¬ region id)
    (hc : ∀ c ∈ node.kind.children, w.Done region c) (hn : w.NormalNode node) :
    (w.fill id node).Handled (fun i => region i ∨ i = id) id := by
  have hretains := retains_fill w id node
  have hP : ∀ i, region i → i < w.graph.size → i ≠ id := fun i hi _ heq => hid (heq ▸ hi)
  refine .inl (.node (w.graph.get?_fill_self hlt) free
    ⟨.inr rfl, hretains.normalNode hP hc hn⟩ fun c hmem => ?_)
  exact Done.weaken (hretains.done hP (hc c hmem)) fun i hi _ => .inl hi

/-- A step at a union or an intersection whose members are done. -/
theorem handled_reduceCombination (isUnion : Bool) (node : Node) (hlt : id < w.graph.size)
    (free : w.Free id) (hid : ¬ region id) (hc : ∀ c ∈ children, w.Done region (w.resolve c)) :
    Retains (· ≠ id) w (w.reduceCombination id isUnion node children) ∧
      (w.reduceCombination id isUnion node children).Handled (fun i => region i ∨ i = id) id := by
  have htidy := w.tidy_done region
  have hmembers := htidy.members id isUnion hc
  have hcombined := w.combined_reduceCombination id isUnion node children
  generalize w.reduceCombination id isUnion node children = v at hcombined ⊢
  refine ⟨hcombined.retains, ?_⟩
  cases hcombined with
  | absorb =>
      refine handled_fill hlt free hid nofun fun isUnion cs hkind => ?_
      cases isUnion <;> cases hkind
  | combine any single =>
      refine handled_fill hlt free hid (fun c hmem => ?_) fun b cs hkind => ?_
      · exact hmembers c (by rwa [Kind.children_combination] at hmem)
      · obtain ⟨rfl, rfl⟩ := Kind.combination_inj hkind
        exact htidy.normalMembers (fun h => hid (Done.mem h)) hc any single
  | @copy only child single _ _ member =>
      obtain ⟨hnormal, hparts⟩ :=
        htidy.of_get? (hmembers only (single ▸ List.mem_singleton_self only)) member
      exact handled_fill hlt free hid hparts hnormal
  | @redirect only child single =>
      have honly := hmembers only (single ▸ List.mem_singleton_self only)
      have hdone : (w.redirect id only).Done region only :=
        (w.retains_redirect id only).done (fun i hi _ heq => hid (heq ▸ hi)) honly
      refine .inr ⟨only, ?_, Done.weaken hdone fun i hi _ => .inl hi⟩
      rw [redirect, List.lookup_cons_self]

end Reduction

end Typewright
